import Mathlib.Logic.Relation
import LiveMarkup.Live.Component
import LiveMarkup.Proofs.Node.Linked

/-!
# The forest of live nodes

Nodes are made, changed and moved by a few operations (`NodeStore.Edit`). As long as none of them
makes a node its own ancestor, the store is a forest (`NodeStore.Forest`): every node is a child of
exactly its parent, once, no fragment is a child, and no path up from a node comes back to it.

An operation that moves nodes makes one of them its own ancestor exactly if it puts a node that is
above the target below the target (`NodeStore.Forest.acyclic_run_iff`). What moves is said once, by
`NodeStore.take`: a node itself, or for a fragment its children. So for every operation the proofs
follow the same two steps as for the links alone: taking nodes out removes links and cannot close
a path, and putting them in adds links to one node only.

The main result is `NodeStore.forest_of_reaches`; it also says what appending and replacing do to
the lists of children.
-/

namespace LiveMarkup

open Relation (ReflTransGen TransGen)

namespace NodeStore

variable {s s' : NodeStore} {n m p c r : NodeId} {moved : List NodeId}

/-! ## Paths up -/

/-- Whether `p` is the parent of `n`. -/
def Under (s : NodeStore) (n p : NodeId) : Prop := (s.get n).parent = some p

/-- Whether `m` is `n`, or an ancestor of it. -/
def Above (s : NodeStore) (m n : NodeId) : Prop := ReflTransGen s.Under n m

/-- Whether no node is its own ancestor. -/
def Acyclic (s : NodeStore) : Prop := ∀ n, ¬ TransGen s.Under n n

theorem Above.eq_of_top (h : s.Above m n) (hn : (s.get n).parent = none) : m = n := by
  rcases ReflTransGen.cases_head h with heq | ⟨p, hp, -⟩
  · exact heq.symm
  · exact absurd (hn.symm.trans hp) (by simp)

/-- A node without children is above no other node. -/
theorem Linked.eq_of_above (hs : s.Linked) (h : s.Above m n) (hm : (s.get m).children = []) :
    n = m := by
  rcases ReflTransGen.cases_tail h with heq | ⟨c, -, hc⟩
  · exact heq.symm
  · have hmem := (hs.mem_children m c).mpr hc
    rw [hm] at hmem
    exact absurd hmem List.not_mem_nil

/-- A path that may lead through nodes with new parents has an old part: it is old altogether, or
as far as the first of these nodes. -/
theorem above_or_exists_moved (h : ∀ c, c ∉ moved → ∀ p, s'.Under c p → s.Under c p)
    (hpath : s'.Above m n) : s.Above m n ∨ ∃ c ∈ moved, s.Above c n ∧ s'.Above m c := by
  induction hpath using ReflTransGen.head_induction_on with
  | refl => exact .inl .refl
  | @head a b hab hbm ih =>
    by_cases ha : a ∈ moved
    · exact .inr ⟨a, ha, .refl, .head hab hbm⟩
    · have hstep := h a ha b hab
      rcases ih with ih | ⟨c, hc, hpath, hrest⟩
      · exact .inl (.head hstep ih)
      · exact .inr ⟨c, hc, .head hstep hpath, hrest⟩

/-! ## Taking out -/

theorem Frees.under (h : s.Frees moved s') (hc : s'.Under c p) : c ∉ moved ∧ s.Under c p := by
  rw [Under, h.get, Node.parent_placed] at hc
  by_cases hmem : c ∈ moved
  · rw [if_pos hmem] at hc
    contradiction
  · rw [if_neg hmem] at hc
    exact ⟨hmem, hc⟩

theorem Frees.under_of_not_mem (h : s.Frees moved s') (hc : s.Under c p) (hmem : c ∉ moved) :
    s'.Under c p := by
  rw [Under, h.get, Node.parent_placed, if_neg hmem]
  exact hc

theorem Frees.above (h : s.Frees moved s') (hpath : s'.Above m n) : s.Above m n :=
  ReflTransGen.mono (fun _ _ hc ↦ (h.under hc).2) _ _ hpath

/-- A path up to a node that is taken out is left as far as the first such node. -/
theorem Frees.exists_above (h : s.Frees moved s') (hm : m ∈ moved) (hpath : s.Above m n) :
    ∃ c ∈ moved, s'.Above c n := by
  rcases above_or_exists_moved (fun c hc p hp ↦ h.under_of_not_mem hp hc) hpath with
    hpath | ⟨c, hc, hpath, -⟩
  · exact ⟨m, hm, hpath⟩
  · exact ⟨c, hc, hpath⟩

theorem Frees.acyclic (h : s.Frees moved s') (hs : s.Acyclic) : s'.Acyclic :=
  fun n hn ↦ hs n (TransGen.mono (fun _ _ hc ↦ (h.under hc).2) _ _ hn)

/-! ## Putting in -/

section Houses

variable {pre gone post : List NodeId}

theorem Houses.under (h : s.Houses p pre gone moved post s') (hc : c ∉ moved)
    (hm : s'.Under c m) : s.Under c m := by
  rw [Under, h.get, Node.parent_placed, if_neg hc] at hm
  by_cases hgone : c ∈ gone
  · rw [if_pos hgone] at hm
    contradiction
  · rwa [if_neg hgone] at hm

theorem Houses.not_mem_gone (h : s.Houses p pre gone moved post s') (hs : s.Linked)
    (hc : c ∈ moved) : c ∉ gone := by
  intro hgone
  have hparent : (s.get c).parent = some p := by
    rw [← hs.mem_children, h.children]
    simp [hgone]
  rw [h.top c hc] at hparent
  contradiction

theorem Houses.under_moved (h : s.Houses p pre gone moved post s') (hs : s.Linked)
    (hc : c ∈ moved) : s'.Under c p := by
  rw [Under, h.get, Node.parent_placed, if_neg (h.not_mem_gone hs hc), if_pos hc]

/-- Putting in nodes that are not above their new parent closes no path. -/
theorem Houses.acyclic (h : s.Houses p pre gone moved post s') (hs : s.Linked)
    (hacyclic : s.Acyclic) (hclear : ∀ c ∈ moved, ¬ s.Above c p) : s'.Acyclic := by
  have hold (c : NodeId) (hc : c ∉ moved) (m : NodeId) (hm : s'.Under c m) : s.Under c m :=
    h.under hc hm
  -- From the new parent all paths are old.
  have hfrom {m : NodeId} (hpath : s'.Above m p) : s.Above m p := by
    rcases above_or_exists_moved hold hpath with hpath | ⟨c, hc, hpath, -⟩
    · exact hpath
    · exact absurd hpath (hclear c hc)
  have hmoved (c : NodeId) (hc : c ∈ moved) (m : NodeId) (hm : s'.Under c m) : m = p :=
    Option.some.inj (hm.symm.trans (h.under_moved hs hc))
  -- A cycle passes one of these nodes, or it was there before.
  intro n hn
  obtain ⟨q, hnq, hqn⟩ := TransGen.head'_iff.mp hn
  by_cases hn : n ∈ moved
  · rw [hmoved n hn q hnq] at hqn
    exact hclear n hn (hfrom hqn)
  · have hstep := hold n hn q hnq
    rcases above_or_exists_moved hold hqn with hpath | ⟨c, hc, hqc, hcn⟩
    · exact hacyclic n (.head' hstep hpath)
    · rcases ReflTransGen.cases_head hcn with rfl | ⟨d, hcd, hdn⟩
      · exact hn hc
      · rw [hmoved c hc d hcd] at hdn
        exact hclear c hc ((hfrom hdn).trans (.head hstep hqc))

/-- Putting in a node that is above its new parent closes a path. -/
theorem Houses.not_acyclic (h : s.Houses p pre gone moved post s') (hs : s.Linked)
    (hacyclic : s.Acyclic) (hc : c ∈ moved) (habove : s.Above c p) : ¬ s'.Acyclic := by
  -- What has gone had the new parent, so that it is not on the path.
  have hgone (m : NodeId) (hm : s.Above m p) : m ∉ gone := fun hmem ↦ by
    have hparent : s.Under m p := by
      rw [Under, ← hs.mem_children, h.children]
      simp [hmem]
    exact hacyclic p (.tail' hm hparent)
  have hpath : ∃ d ∈ moved, s'.Above d p := by
    suffices hstart : ∀ {n}, s.Above c n → s.Above n p → ∃ d ∈ moved, s'.Above d n from
      hstart habove .refl
    intro n hcn
    induction hcn using ReflTransGen.head_induction_on with
    | refl => exact fun _ ↦ ⟨c, hc, .refl⟩
    | @head a b hab _ ih =>
      intro hap
      by_cases ha : a ∈ moved
      · exact ⟨a, ha, .refl⟩
      · have hstep : s'.Under a b := by
          rw [Under, h.get, Node.parent_placed, if_neg (hgone a hap), if_neg ha]
          exact hab
        obtain ⟨d, hd, hdb⟩ := ih (hap.tail hab)
        exact ⟨d, hd, .head hstep hdb⟩
  obtain ⟨d, hd, hpath⟩ := hpath
  exact fun hacyclic' ↦ hacyclic' d (.head' (h.under_moved hs hd) hpath)

end Houses

/-- Putting in closes a path exactly if a node that is put in is above its new parent. -/
theorem Frees.acyclic_houses_iff {pre gone post : List NodeId} {s₁ : NodeStore} (hs : s.Linked)
    (hacyclic : s.Acyclic) (hfrees : s.Frees moved s₁)
    (h : s₁.Houses p pre gone moved post s') :
    s'.Acyclic ↔ ∀ c ∈ moved, ¬ s.Above c p := by
  constructor
  · intro hafter c hc habove
    obtain ⟨d, hd, hpath⟩ := hfrees.exists_above hc habove
    exact h.not_acyclic (hfrees.linked hs) (hfrees.acyclic hacyclic) hd hpath hafter
  · exact fun hclear ↦ h.acyclic (hfrees.linked hs) (hfrees.acyclic hacyclic)
      fun c hc hpath ↦ hclear c hc (hfrees.above hpath)

theorem Linked.acyclic_append_iff (hs : s.Linked) (hacyclic : s.Acyclic) (hp : p.index < s.size)
    (n : NodeId) : (s.append p n).Acyclic ↔ ∀ c ∈ (s.take n).1, ¬ s.Above c p :=
  (hs.frees_take n).acyclic_houses_iff hs hacyclic (hs.houses_append hp n)

/-- What is inserted for a node from which a child of `p` is taken is not above `p`. -/
theorem Linked.not_above_of_mem_take (hs : s.Linked) (hacyclic : s.Acyclic) (hn : s.Under n p)
    (hmem : n ∈ (s.take r).1) (hc : c ∈ (s.take r).1) : ¬ s.Above c p := by
  intro habove
  by_cases hkind : (s.get r).kind = .fragment
  · rw [take_of_fragment hkind] at hmem hc
    have hrp : r = p := Option.some.inj (((hs.mem_children r n).mp hmem).symm.trans hn)
    have hcp : s.Under c p := hrp ▸ (hs.mem_children r c).mp hc
    exact hacyclic c (.head' hcp habove)
  · rw [take_of_ne hkind, List.mem_singleton] at hmem hc
    rw [hc, ← hmem] at habove
    exact hacyclic n (.head' hn habove)

theorem Linked.acyclic_replace_iff (hs : s.Linked) (hacyclic : s.Acyclic) (n r : NodeId) :
    (s.replace n r).2.Acyclic ↔
      ∀ p, (s.get n).parent = some p → ∀ c ∈ (s.take r).1, ¬ s.Above c p := by
  have hfrees := hs.frees_take r
  cases hparent : (s.get n).parent with
  | none =>
    rw [replace_of_top hparent]
    exact ⟨fun _ p hp ↦ absurd hp (by simp), fun _ ↦ hacyclic⟩
  | some p =>
    simp only [Option.some.injEq, forall_eq']
    rcases hs.replace_cases hparent r with ⟨-, hmem, heq⟩ | ⟨-, pre, post, hhouses⟩
    · rw [heq]
      exact ⟨fun _ c hc ↦ hs.not_above_of_mem_take hacyclic hparent hmem hc,
        fun _ ↦ hfrees.acyclic hacyclic⟩
    · exact hfrees.acyclic_houses_iff hs hacyclic hhouses

/-! ## Forests -/

/-- Whether the store is a forest: a node is a child of exactly its parent, once, no fragment is a
child, and no node is its own ancestor. -/
structure Forest (s : NodeStore) : Prop where
  linked : s.Linked
  solid : ∀ {c p}, s.Under c p → (s.get c).kind ≠ .fragment
  acyclic : s.Acyclic

namespace Forest

theorem empty : NodeStore.empty.Forest where
  linked := .empty
  solid h := absurd h (by simp [Under, NodeStore.empty, get])
  acyclic n hn := by
    obtain ⟨q, hq, -⟩ := TransGen.head'_iff.mp hn
    simp [Under, NodeStore.empty, get] at hq

/-- What is inserted for a node is never a fragment. -/
theorem kind_take (hs : s.Forest) (hc : c ∈ (s.take n).1) : (s.get c).kind ≠ .fragment := by
  rcases mem_take hc with hchild | ⟨rfl, hkind⟩
  · exact hs.solid ((hs.linked.mem_children n c).mp hchild)
  · exact hkind

theorem frees (hs : s.Forest) (h : s.Frees moved s') : s'.Forest where
  linked := h.linked hs.linked
  solid hc := by
    rw [h.get, Node.kind_placed]
    exact hs.solid (h.under hc).2
  acyclic := h.acyclic hs.acyclic

theorem houses {pre gone post : List NodeId} (hs : s.Forest)
    (h : s.Houses p pre gone moved post s') (hkinds : ∀ c ∈ moved, (s.get c).kind ≠ .fragment)
    (hacyclic : s'.Acyclic) : s'.Forest where
  linked := h.linked hs.linked
  solid {c m} hc := by
    rw [h.get, Node.kind_placed]
    by_cases hmem : c ∈ moved
    · exact hkinds c hmem
    · exact hs.solid (h.under hmem hc)
  acyclic := hacyclic

/-- A change that keeps the links and the kinds keeps the forest. -/
theorem of_links (hs : s.Forest) (hlinked : s'.Linked)
    (hparent : ∀ n, (s'.get n).parent = (s.get n).parent)
    (hkind : ∀ c p, s.Under c p → (s'.get c).kind = (s.get c).kind) : s'.Forest where
  linked := hlinked
  solid {c p} hc := by
    have hold : s.Under c p := (hparent c).symm.trans hc
    rw [hkind c p hold]
    exact hs.solid hold
  acyclic n hn := by
    refine hs.acyclic n (TransGen.mono (fun c p hc ↦ ?_) _ _ hn)
    exact (hparent c).symm.trans hc

theorem modify (hs : s.Forest) (n : NodeId) {f : Node → Node}
    (hf : ∀ node, (f node).children = node.children ∧ (f node).parent = node.parent ∧
      (f node).kind = node.kind) : (s.modify n f).Forest := by
  exact hs.of_links (hs.linked.modify n fun node ↦ ⟨(hf node).1, (hf node).2.1⟩)
    (fun m ↦ get_modify_of_eq s n (fun node ↦ (hf node).2.1) m)
    fun m _ _ ↦ get_modify_of_eq s n (fun node ↦ (hf node).2.2) m

/-- A new node stands alone. -/
theorem create (hs : s.Forest) {node : Node} (hchildren : node.children = [])
    (hparent : node.parent = none) : (s.create node).2.Forest := by
  refine hs.of_links (hs.linked.create hchildren hparent) (fun m ↦ ?_) fun c p hc ↦ ?_
  · rw [get_create]
    split
    · rename_i h
      have hnone : s.get m = default := get_of_not_lt (h ▸ Nat.lt_irrefl _)
      rw [hparent, hnone]
      rfl
    · rfl
  · rw [get_create_of_lt (Linked.lt_of_parent hc)]

theorem reserve (hs : s.Forest) (k : Nat) : (s.reserve k).Forest := by
  induction k generalizing s with
  | zero => exact hs
  | succ k ih => exact ih (hs.create rfl rfl)

theorem append (hs : s.Forest) (hp : p.index < s.size)
    (hclear : ∀ c ∈ (s.take n).1, ¬ s.Above c p) : (s.append p n).Forest := by
  have hfrees := hs.linked.frees_take n
  refine (hs.frees hfrees).houses (hs.linked.houses_append hp n) (fun c hc ↦ ?_)
    ((hs.linked.acyclic_append_iff hs.acyclic hp n).mpr hclear)
  rw [hfrees.get, Node.kind_placed]
  exact hs.kind_take hc

/-- What is put at the end of a node without a parent is not above it. -/
theorem clear_of_top (hp : (s.get p).parent = none) (hne : p ≠ n) (hs : s.Linked) :
    ∀ c ∈ (s.take n).1, ¬ s.Above c p := by
  intro c hc habove
  obtain rfl := habove.eq_of_top hp
  rcases mem_take hc with hchild | ⟨heq, -⟩
  · rw [hs.mem_children, hp] at hchild
    contradiction
  · exact hne heq

theorem parent_append_of_top (hs : s.Linked) (hlt : p.index < s.size)
    (hp : (s.get p).parent = none) (hne : p ≠ n) : ((s.append p n).get p).parent = none := by
  have hnot : p ∉ (s.take n).1 := fun hmem ↦ clear_of_top hp hne hs p hmem .refl
  rw [(hs.houses_append hlt n).get, (hs.frees_take n).get, Node.parent_placed, Node.parent_placed,
    if_neg List.not_mem_nil, if_neg hnot, if_neg hnot, hp]

/-- Nodes are put at the end of a node without a parent, one after the other. -/
theorem foldl_append (hs : s.Forest) (hlt : p.index < s.size) (hp : (s.get p).parent = none)
    {ns : List NodeId} (hns : ∀ n ∈ ns, p ≠ n) :
    (ns.foldl (fun s n ↦ s.append p n) s).Forest := by
  induction ns generalizing s with
  | nil => exact hs
  | cons n ns ih =>
    have hne := hns n List.mem_cons_self
    exact ih (hs.append hlt (clear_of_top hp hne hs.linked)) (by rwa [size_append])
      (parent_append_of_top hs.linked hlt hp hne) fun m hm ↦ hns m (List.mem_cons_of_mem _ hm)

theorem replace (hs : s.Forest)
    (hclear : ∀ p, (s.get n).parent = some p → ∀ c ∈ (s.take r).1, ¬ s.Above c p) :
    (s.replace n r).2.Forest := by
  cases hparent : (s.get n).parent with
  | none =>
    rw [replace_of_top hparent]
    exact hs
  | some p =>
    have hfrees := hs.linked.frees_take r
    rcases hs.linked.houses_replace hparent r with heq | ⟨pre, post, hhouses⟩
    · rw [heq]
      exact hs.frees hfrees
    · refine (hs.frees hfrees).houses hhouses (fun c hc ↦ ?_)
        ((hs.linked.acyclic_replace_iff hs.acyclic n r).mpr hclear)
      rw [hfrees.get, Node.kind_placed]
      exact hs.kind_take hc

theorem detach (hs : s.Forest) (n : NodeId) : (s.detach n).Forest :=
  hs.frees (hs.linked.frees_detach n)

theorem setTextContent (hs : s.Forest) (hn : n.index < s.size) (text : String) :
    (s.setTextContent n text).Forest := by
  unfold NodeStore.setTextContent
  split
  · have hfreed := hs.frees (hs.linked.frees_foldl_detach (s.get n).children)
    have hsize : ((s.get n).children.foldl NodeStore.detach s).size = s.size :=
      (hs.linked.frees_foldl_detach _).size
    generalize (s.get n).children.foldl NodeStore.detach s = s₁ at hfreed hsize
    have hcreate : (s₁.create { kind := .text, data := text }).2.Forest := hfreed.create rfl rfl
    have hnew : (s₁.create { kind := .text, data := text }).2.get ⟨s₁.nodes.size⟩ =
        { kind := .text, data := text } := get_create_self s₁ _
    refine hcreate.append ?_ fun c hc habove ↦ ?_
    · rw [size_create, hsize]
      exact Nat.lt_succ_of_lt hn
    · -- The new text has no children, so it is above no node but itself.
      rw [take_of_ne (by rw [hnew]; simp), List.mem_singleton] at hc
      rw [hc] at habove
      have heq := hcreate.linked.eq_of_above habove (by rw [hnew])
      rw [heq, ← hsize] at hn
      exact Nat.lt_irrefl _ hn
  · exact hs.modify n fun node ↦ ⟨rfl, rfl, rfl⟩

mutual

/-- New nodes in the shape of a tree. -/
theorem plant {α : Type} {s : NodeStore} (hs : s.Forest) (t : Tree α) : (s.plant t).2.Forest := by
  obtain ⟨l, kind, attrs, data, children⟩ := t
  have hcreate : (s.create { kind, attrs, data }).2.Forest := hs.create rfl rfl
  have hplant : s.plant (.node l kind attrs data children) =
      (⟨s.size⟩, (s.create { kind, attrs, data }).2.plantBelow ⟨s.size⟩ children) := by
    rw [NodeStore.plant]
    rfl
  have hget : (s.create { kind, attrs, data }).2.get ⟨s.size⟩ = { kind, attrs, data } :=
    get_create_self s _
  rw [hplant]
  refine plantBelow hcreate ?_ ?_ children
  · rw [size_create]
    exact Nat.lt_succ_self _
  · rw [hget]

/-- New nodes in the shape of trees, at the end of a node without a parent. -/
theorem plantBelow {α : Type} {s : NodeStore} {p : NodeId} (hs : s.Forest) (hlt : p.index < s.size)
    (hp : (s.get p).parent = none) (ts : List (Tree α)) : (s.plantBelow p ts).Forest := by
  match ts with
  | [] =>
    rw [NodeStore.plantBelow]
    exact hs
  | t :: ts =>
    obtain ⟨hfst, hsize, hextends⟩ := (Extends.refl hs.linked).plant t
    have hplant := plant hs t
    have hlt' := Nat.lt_trans hlt hsize
    have hp' : ((s.plant t).2.get p).parent = none := by rw [hextends.get hlt, hp]
    have hne : p ≠ (s.plant t).1 := by
      rw [hfst]
      exact fun h ↦ Nat.ne_of_lt hlt (congrArg NodeId.index h)
    rw [NodeStore.plantBelow]
    refine plantBelow (hplant.append hlt' (clear_of_top hp' hne hplant.linked)) ?_ ?_ ts
    · rw [size_append]
      exact hlt'
    · exact parent_append_of_top hplant.linked hlt' hp' hne

end

theorem plantAll {α : Type} (hs : s.Forest) (ts : List (Tree α)) :
    (s.plantAll ts).2.Forest ∧ s.size ≤ (s.plantAll ts).2.size ∧
      ∀ n ∈ (s.plantAll ts).1, n.index < (s.plantAll ts).2.size := by
  induction ts generalizing s with
  | nil => exact ⟨hs, Nat.le_refl _, fun n hn ↦ absurd hn List.not_mem_nil⟩
  | cons t ts ih =>
    obtain ⟨hfst, hsize, -⟩ := (Extends.refl hs.linked).plant t
    obtain ⟨hforest, hle, hroots⟩ := ih (hs.plant t)
    rw [NodeStore.plantAll]
    refine ⟨hforest, Nat.le_trans (Nat.le_of_lt hsize) hle, fun n hn ↦ ?_⟩
    rcases List.mem_cons.mp hn with rfl | hn
    · rw [hfst]
      exact Nat.lt_of_lt_of_le hsize hle
    · exact hroots n hn

/-- Nodes that nobody holds go, one after the other. -/
theorem letGo (hs : s.Forest) (held : Marks) (depth : Nat) (n : NodeId) :
    (NodeStore.letGo held depth s n).Forest := by
  induction depth generalizing s n with
  | zero => exact hs
  | succ depth ih =>
    unfold NodeStore.letGo
    split
    · exact hs
    · generalize (s.get n).children = ns
      have hdisband := hs.frees (hs.linked.frees_disband n)
      generalize s.disband n = s₁ at hdisband
      induction ns generalizing s₁ with
      | nil => exact hdisband
      | cons m ns ihns => exact ihns _ (ih hdisband m)

theorem keepOnly (hs : s.Forest) (held : List NodeId) : (s.keepOnly held).Forest := by
  unfold NodeStore.keepOnly
  generalize s.tops = ns
  generalize s.marks held = marks
  generalize s.size = depth
  induction ns generalizing s with
  | nil => exact hs
  | cons n ns ih => exact ih (hs.letGo marks depth n)

end Forest

/-! ## Edits -/

/-- Makes a node, sets its attributes, and puts other nodes at its end, one after the other. -/
def build (s : NodeStore) (kind : NodeKind) (data : String) (attrs : Attributes)
    (children : List NodeId) : NodeId × NodeStore :=
  let (n, s) := s.create { kind, data }
  let s := attrs.foldl (fun s a ↦ s.setAttribute n a.1 a.2) s
  (n, children.foldl (fun s c ↦ s.append n c) s)

/-- Reads markup into a new fragment. -/
def parse (s : NodeStore) (source : String) : Except ParseError NodeId × NodeStore :=
  let r := Reading.ofSource source
  match r.error with
  | some e => (.error e, s.reserve r.nodeCount)
  | none =>
    let (roots, s) := s.plantAll r.forest
    let (fragment, s) := s.build .fragment "" [] <|
      (r.forest.zip roots).filterMap fun (t, n) ↦ if t.isBlankText then none else some n
    (.ok fragment, s)

theorem parseFragment_eq {C H : Type} (source : String) :
    (Live.parseFragment source : Live C H _) = Live.editWith fun nodes ↦ nodes.parse source := by
  unfold Live.parseFragment
  refine congrArg Live.editWith (funext fun nodes ↦ ?_)
  unfold parse
  rfl

/-- An operation on nodes. -/
inductive Edit where
  /-- An element, a text, a comment or a fragment, with attributes and children. -/
  | build (kind : NodeKind) (data : String) (attrs : Attributes) (children : List NodeId)
  | parse (source : String)
  | deepClone (n : NodeId)
  | append (p n : NodeId)
  | replace (n r : NodeId)
  | detach (n : NodeId)
  | setTextContent (n : NodeId) (text : String)
  | setAttribute (n : NodeId) (name value : String)
  | removeAttribute (n : NodeId) (name : String)
  | setData (n : NodeId) (data : String)
  /-- The nodes that are not held by anybody go. -/
  | keepOnly (held : List NodeId)

namespace Edit

/-- The node that an operation makes and answers, and the store behind it. -/
def run (s : NodeStore) : Edit → Option NodeId × NodeStore
  | .build kind data attrs children =>
    let (n, s) := s.build kind data attrs children
    (some n, s)
  | .parse source =>
    let (answer, s) := s.parse source
    (answer.toOption, s)
  | .deepClone n =>
    let (copy, s) := s.deepClone n
    (some copy, s)
  | .append p n => (none, s.append p n)
  | .replace n r => (none, (s.replace n r).2)
  | .detach n => (none, s.detach n)
  | .setTextContent n text => (none, s.setTextContent n text)
  | .setAttribute n name value => (none, s.setAttribute n name value)
  | .removeAttribute n name => (none, s.removeAttribute n name)
  | .setData n data => (none, s.setData n data)
  | .keepOnly held => (none, s.keepOnly held)

/-- The nodes that an operation is given. -/
def arguments : Edit → List NodeId
  | .build _ _ _ children => children
  | .parse _ => []
  | .append p n => [p, n]
  | .replace n r => [n, r]
  | .deepClone n | .detach n | .setTextContent n _ | .setAttribute n _ _ | .removeAttribute n _
  | .setData n _ => [n]
  | .keepOnly held => held

/-- Whether an operation puts no node below the node itself or a node below it. -/
def Clear (s : NodeStore) : Edit → Prop
  | .append p n => ∀ c ∈ (s.take n).1, ¬ s.Above c p
  | .replace n r => ∀ p, (s.get n).parent = some p → ∀ c ∈ (s.take r).1, ¬ s.Above c p
  | _ => True

/-- Whether an operation is given nodes of the store, appends no node to itself, and puts no node
below itself. -/
structure Allowed (s : NodeStore) (e : Edit) : Prop where
  lt : ∀ n ∈ e.arguments, n.index < s.size
  ne : ∀ {p n}, e = .append p n → p ≠ n
  clear : e.Clear s

end Edit

theorem size_foldl_setAttribute (s : NodeStore) (n : NodeId) (attrs : Attributes) :
    (attrs.foldl (fun s a ↦ s.setAttribute n a.1 a.2) s).size = s.size := by
  induction attrs generalizing s with
  | nil => rfl
  | cons a attrs ih => rw [List.foldl_cons, ih, size_setAttribute]

theorem size_foldl_append (s : NodeStore) (p : NodeId) (ns : List NodeId) :
    (ns.foldl (fun s n ↦ s.append p n) s).size = s.size := by
  induction ns generalizing s with
  | nil => rfl
  | cons n ns ih => rw [List.foldl_cons, ih, size_append]

theorem fst_build (s : NodeStore) (kind : NodeKind) (data : String) (attrs : Attributes)
    (children : List NodeId) : (s.build kind data attrs children).1 = ⟨s.size⟩ := rfl

theorem size_build (s : NodeStore) (kind : NodeKind) (data : String) (attrs : Attributes)
    (children : List NodeId) : (s.build kind data attrs children).2.size = s.size + 1 := by
  rw [build]
  dsimp only
  rw [size_foldl_append, size_foldl_setAttribute, size_create]

namespace Forest

theorem setAttribute (hs : s.Forest) (n : NodeId) (name value : String) :
    (s.setAttribute n name value).Forest := hs.modify n fun _ ↦ ⟨rfl, rfl, rfl⟩

/-- Attributes are set, one after the other, and all parents stay what they are. -/
theorem foldl_setAttribute (hs : s.Forest) (n : NodeId) (attrs : Attributes) :
    (attrs.foldl (fun s a ↦ s.setAttribute n a.1 a.2) s).Forest ∧
      ∀ m, ((attrs.foldl (fun s a ↦ s.setAttribute n a.1 a.2) s).get m).parent =
        (s.get m).parent := by
  induction attrs generalizing s with
  | nil => exact ⟨hs, fun _ ↦ rfl⟩
  | cons a attrs ih =>
    obtain ⟨hforest, hparent⟩ := ih (hs.setAttribute n a.1 a.2)
    refine ⟨hforest, fun m ↦ (hparent m).trans ?_⟩
    exact get_modify_of_eq (f := Node.parent) s n (g := fun node ↦
      { node with attrs := node.attrs.set a.1 a.2 }) (fun _ ↦ rfl) m

theorem build (hs : s.Forest) (kind : NodeKind) (data : String) (attrs : Attributes)
    {children : List NodeId} (hlt : ∀ c ∈ children, c.index < s.size) :
    (s.build kind data attrs children).2.Forest := by
  have hcreate : (s.create { kind, data }).2.Forest := hs.create rfl rfl
  have hget : (s.create { kind, data }).2.get ⟨s.size⟩ = { kind, data } := get_create_self s _
  obtain ⟨hforest, hparent⟩ := hcreate.foldl_setAttribute ⟨s.size⟩ attrs
  refine hforest.foldl_append ?_ ((hparent _).trans (congrArg Node.parent hget)) fun c hc heq ↦ ?_
  · rw [size_foldl_setAttribute, size_create]
    exact Nat.lt_succ_self _
  · exact Nat.lt_irrefl _ (heq ▸ hlt c hc)

theorem parse (hs : s.Forest) (source : String) : (s.parse source).2.Forest := by
  unfold NodeStore.parse
  dsimp only
  split
  · exact hs.reserve _
  · obtain ⟨hforest, -, hroots⟩ := hs.plantAll (Reading.ofSource source).forest
    refine hforest.build _ _ _ fun c hc ↦ ?_
    obtain ⟨⟨t, n⟩, hmem, hkept⟩ := List.mem_filterMap.mp hc
    dsimp only at hkept
    split at hkept
    · contradiction
    · obtain rfl := Option.some.inj hkept
      exact hroots n (List.of_mem_zip hmem).2

/-- Every allowed operation leaves a forest behind. -/
theorem run (hs : s.Forest) {e : Edit} (he : e.Allowed s) : (e.run s).2.Forest := by
  have hlt := he.lt
  have hclear := he.clear
  cases e with
  | build kind data attrs children => exact hs.build kind data attrs hlt
  | parse source => exact hs.parse source
  | deepClone n => exact hs.plant (s.tree n)
  | append p n => exact hs.append (hlt p List.mem_cons_self) hclear
  | replace n r => exact hs.replace hclear
  | detach n => exact hs.detach n
  | setTextContent n text => exact hs.setTextContent (hlt n (List.mem_singleton_self n)) text
  | setAttribute n name value => exact hs.setAttribute n name value
  | removeAttribute n name => exact hs.modify n fun node ↦ ⟨rfl, rfl, rfl⟩
  | setData n data => exact hs.modify n fun node ↦ ⟨rfl, rfl, rfl⟩
  | keepOnly held => exact hs.keepOnly held

/-- An operation makes a node its own ancestor exactly if it puts a node below itself. -/
theorem acyclic_run_iff (hs : s.Forest) {e : Edit} (hlt : ∀ n ∈ e.arguments, n.index < s.size) :
    (e.run s).2.Acyclic ↔ e.Clear s := by
  have hfree {e : Edit} (hlt : ∀ n ∈ e.arguments, n.index < s.size)
      (hne : ∀ p n, e ≠ .append p n) (hclear : e.Clear s) : (e.run s).2.Acyclic :=
    (hs.run ⟨hlt, fun h ↦ absurd h (hne _ _), hclear⟩).acyclic
  cases e with
  | append p n => exact hs.linked.acyclic_append_iff hs.acyclic (hlt p List.mem_cons_self) n
  | replace n r => exact hs.linked.acyclic_replace_iff hs.acyclic n r
  | _ => exact iff_of_true (hfree hlt (fun _ _ ↦ Edit.noConfusion) trivial) trivial

end Forest

/-! ## Identities -/

theorem Forest.size_parse (hs : s.Forest) (source : String) :
    s.size ≤ (s.parse source).2.size ∧ ∀ n, (s.parse source).1.toOption = some n →
      s.size ≤ n.index ∧ n.index < (s.parse source).2.size := by
  unfold NodeStore.parse
  dsimp only
  split
  · exact ⟨(s.agrees_reserve _).size, fun n hn ↦ absurd hn (by simp [Except.toOption])⟩
  · have hle := (hs.plantAll (Reading.ofSource source).forest).2.1
    rw [fst_build, size_build]
    refine ⟨Nat.le_succ_of_le hle, fun n hn ↦ ?_⟩
    obtain rfl := Option.some.inj hn
    exact ⟨hle, Nat.lt_succ_self _⟩

/-- No operation takes an identity back, and what it makes has a new one. -/
theorem Forest.size_run (hs : s.Forest) (e : Edit) :
    s.size ≤ (e.run s).2.size ∧
      ∀ n, (e.run s).1 = some n → s.size ≤ n.index ∧ n.index < (e.run s).2.size := by
  have hold {s' : NodeStore} (h : s.size ≤ s'.size) : s.size ≤ s'.size ∧
      ∀ n, (none : Option NodeId) = some n → s.size ≤ n.index ∧ n.index < s'.size :=
    ⟨h, fun n hn ↦ absurd hn (by simp)⟩
  cases e with
  | build kind data attrs children =>
    have hsize := size_build s kind data attrs children
    refine ⟨hsize ▸ Nat.le_succ _, fun n hn ↦ ?_⟩
    obtain rfl := Option.some.inj hn
    exact ⟨Nat.le_refl _, Nat.lt_of_lt_of_eq (Nat.lt_succ_self _) hsize.symm⟩
  | parse source => exact hs.size_parse source
  | deepClone n =>
    obtain ⟨hfst, hsize, -⟩ := (Extends.refl hs.linked).plant (s.tree n)
    refine ⟨Nat.le_of_lt hsize, fun m hm ↦ ?_⟩
    obtain rfl := Option.some.inj hm
    exact ⟨hfst ▸ Nat.le_refl _, hfst ▸ hsize⟩
  | append p n => exact hold (Nat.le_of_eq (size_append s p n).symm)
  | replace n r => exact hold (Nat.le_of_eq (size_replace s n r).symm)
  | detach n => exact hold (Nat.le_of_eq (size_detach s n).symm)
  | setTextContent n text =>
    have hle : s.size ≤ (s.setTextContent n text).size := by
      unfold NodeStore.setTextContent
      split
      · rw [size_append, size_create, size_foldl_detach]
        exact Nat.le_succ _
      · exact Nat.le_of_eq (size_setData s n text).symm
    exact hold hle
  | setAttribute n name value => exact hold (Nat.le_of_eq (size_setAttribute s n name value).symm)
  | removeAttribute n name => exact hold (Nat.le_of_eq (size_removeAttribute s n name).symm)
  | setData n data => exact hold (Nat.le_of_eq (size_setData s n data).symm)
  | keepOnly held => exact hold (Nat.le_of_eq (size_keepOnly s held).symm)

/-! ## Lists of children -/

/-- What moves when a node is inserted somewhere: for a fragment its children, else the node. -/
def inserted (s : NodeStore) (n : NodeId) : List NodeId :=
  if (s.get n).kind = .fragment then (s.get n).children else [n]

theorem fst_take (s : NodeStore) (n : NodeId) : (s.take n).1 = s.inserted n := by
  unfold inserted
  split
  · rename_i h
    rw [take_of_fragment h]
  · rename_i h
    rw [take_of_ne h]

/-- The children of a node, less those that move when `n` is inserted somewhere. -/
def remaining (s : NodeStore) (n q : NodeId) : List NodeId :=
  (s.get q).children.filter (· ∉ s.inserted n)

theorem remaining_self (h : (s.get n).kind = .fragment) : s.remaining n n = [] :=
  List.filter_eq_nil_iff.mpr fun c hc ↦ by simpa [inserted, h] using hc

/-- Whether what is inserted for `n` has gone to the end of `p`, and nothing else has happened to
the lists of children.
-/
structure Appends (s : NodeStore) (p n : NodeId) (s' : NodeStore) : Prop where
  target : (s'.get p).children = s.remaining n p ++ s.inserted n
  others : ∀ q, q ≠ p → (s'.get q).children = s.remaining n q
  emptied : (s.get n).kind = .fragment → (s'.get n).children = []

/-- Whether what is inserted for `r` has gone to the place of `n`, and nothing else has happened to
the lists of children.
-/
structure Replaces (s : NodeStore) (n r : NodeId) (s' : NodeStore) : Prop where
  target : ∃ p pre post, (s.get n).parent = some p ∧ s.remaining r p = pre ++ n :: post ∧
    (s'.get p).children = pre ++ s.inserted r ++ post ∧
    ∀ q, q ≠ p → (s'.get q).children = s.remaining r q
  emptied : (s.get r).kind = .fragment → (s'.get r).children = []

theorem Linked.appends (hs : s.Linked) (hp : p.index < s.size) (hne : p ≠ n) :
    s.Appends p n (s.append p n) := by
  have hhouses := hs.houses_append hp n
  have hfrees := hs.frees_take n
  rw [fst_take] at hhouses hfrees
  have hothers (q : NodeId) (hq : q ≠ p) : ((s.append p n).get q).children = s.remaining n q := by
    rw [hhouses.get, Node.children_placed, if_neg hq, hfrees.get]
    rfl
  refine ⟨?_, hothers, fun h ↦ ?_⟩
  · rw [hhouses.get, Node.children_placed, if_pos rfl, List.append_nil, hfrees.get]
    rfl
  · rw [hothers n hne.symm, remaining_self h]

theorem Linked.replaces (hs : s.Linked) (h : (s.replace n r).1 = true) :
    s.Replaces n r (s.replace n r).2 := by
  obtain ⟨p, hparent⟩ : ∃ p, (s.get n).parent = some p := by
    cases hparent : (s.get n).parent with
    | none => simp [replace_of_top hparent] at h
    | some p => exact ⟨p, rfl⟩
  rcases hs.replace_cases hparent r with ⟨hfalse, -⟩ | ⟨-, pre, post, hhouses⟩
  · rw [h] at hfalse
    contradiction
  have hfrees := hs.frees_take r
  rw [fst_take] at hhouses hfrees
  have hpos : s.remaining r p = pre ++ n :: post := by
    have hchildren := hhouses.children
    rw [hfrees.get, Node.children_placed] at hchildren
    rw [List.append_assoc] at hchildren
    exact hchildren
  have hothers (q : NodeId) (hq : q ≠ p) :
      ((s.replace n r).2.get q).children = s.remaining r q := by
    rw [hhouses.get, Node.children_placed, if_neg hq, hfrees.get]
    rfl
  refine ⟨⟨p, pre, post, hparent, hpos, ?_, hothers⟩, fun hkind ↦ ?_⟩
  · rw [hhouses.get, Node.children_placed, if_pos rfl]
  · have hne : r ≠ p := by
      rintro rfl
      rw [remaining_self hkind] at hpos
      exact absurd hpos.symm (by simp)
    rw [hothers r hne, remaining_self hkind]

/-- All lists of children, one behind the other. -/
def allChildren (s : NodeStore) : List NodeId :=
  (List.range s.size).flatMap fun i ↦ (s.get ⟨i⟩).children

theorem Linked.nodup_allChildren (hs : s.Linked) : s.allChildren.Nodup := by
  refine List.nodup_flatMap.mpr ⟨fun i _ ↦ hs.nodup ⟨i⟩, ?_⟩
  refine List.Nodup.pairwise_of_forall_ne List.nodup_range fun i _ j _ hne c hi hj ↦ hne ?_
  have hparent := (hs.mem_children _ c).mp hi
  rw [(hs.mem_children _ c).mp hj] at hparent
  exact (congrArg NodeId.index (Option.some.inj hparent)).symm

/-! ## Runs -/

/-- The stores that allowed operations lead to, with the nodes that have been made and answered on
the way. -/
inductive Reaches : List NodeId → NodeStore → Prop where
  | empty : Reaches [] .empty
  | run {made : List NodeId} {s : NodeStore} (h : Reaches made s) {e : Edit} (he : e.Allowed s) :
      Reaches (made ++ (e.run s).1.toList) (e.run s).2

theorem Reaches.forest {made : List NodeId} (h : Reaches made s) :
    s.Forest ∧ made.Nodup ∧ ∀ n ∈ made, n.index < s.size := by
  induction h with
  | empty => exact ⟨.empty, List.nodup_nil, fun n hn ↦ absurd hn List.not_mem_nil⟩
  | @run made s _ e he ih =>
    obtain ⟨hs, hnodup, hlt⟩ := ih
    obtain ⟨hsize, hnew⟩ := hs.size_run e
    have hmem {n : NodeId} (hn : n ∈ (e.run s).1.toList) :
        s.size ≤ n.index ∧ n.index < (e.run s).2.size := hnew n (Option.mem_toList.mp hn)
    refine ⟨hs.run he, List.nodup_append'.mpr ⟨hnodup, ?_, fun n hn hn' ↦ ?_⟩, fun n hn ↦ ?_⟩
    · cases (e.run s).1 with
      | none => exact List.nodup_nil
      | some n => exact List.nodup_singleton n
    · exact Nat.lt_irrefl _ (Nat.lt_of_lt_of_le (hlt n hn) (hmem hn').1)
    · rcases List.mem_append.mp hn with hn | hn
      · exact Nat.lt_of_lt_of_le (hlt n hn) hsize
      · exact (hmem hn).2

/-- Whatever is done to nodes, as long as no operation puts a node below itself, the store is a
forest in which children and parents agree and no node is listed twice, and no two nodes have been
given the same identity. Operations that put a node below itself are exactly those that make a node
its own ancestor. Appending moves what is inserted for a node to the end of the list of children,
and replacing a node that has a place moves it to that place; all other lists just lose what moves. -/
theorem forest_of_reaches {made : List NodeId} (h : Reaches made s) :
    s.Forest ∧ s.allChildren.Nodup ∧ (made.Nodup ∧ ∀ n ∈ made, n.index < s.size) ∧
      (∀ e : Edit, (∀ n ∈ e.arguments, n.index < s.size) →
        ((e.run s).2.Acyclic ↔ e.Clear s)) ∧
      (∀ p n, (Edit.append p n).Allowed s → s.Appends p n (s.append p n)) ∧
      ∀ n r, (Edit.replace n r).Allowed s → (s.replace n r).1 = true →
        s.Replaces n r (s.replace n r).2 := by
  obtain ⟨hs, hmade⟩ := h.forest
  exact ⟨hs, hs.linked.nodup_allChildren, hmade, fun e hlt ↦ hs.acyclic_run_iff hlt,
    fun p n he ↦ hs.linked.appends (he.lt p List.mem_cons_self) (he.ne rfl),
    fun n r _ hplace ↦ hs.linked.replaces hplace⟩

/-- What is inserted below a node without a parent is not above it, unless it is that node. -/
theorem not_above_of_top (hp : (s.get p).parent = none) (hnot : p ∉ moved) :
    ∀ c ∈ moved, ¬ s.Above c p := fun _ hc habove ↦ hnot (habove.eq_of_top hp ▸ hc)

/-- A list with one item, two texts in a fragment that take the place of the item, and the item and
the first of the texts that go to the end of the list. -/
theorem list_reaches_forest : ∃ s, Reaches [⟨0⟩, ⟨1⟩, ⟨2⟩, ⟨3⟩, ⟨4⟩] s ∧ s.Forest ∧
    s.allChildren = [⟨2⟩, ⟨0⟩, ⟨1⟩] := by
  have hbuild {s : NodeStore} {kind : NodeKind} {data : String} {attrs : Attributes}
      {children : List NodeId} (hlt : ∀ c ∈ children, c.index < s.size) :
      (Edit.build kind data attrs children).Allowed s := ⟨hlt, Edit.noConfusion, trivial⟩
  have htexts := (((Reaches.empty.run (e := .build .text "item" [] []) (hbuild (by decide))).run
    (e := .build .text "one" [] []) (hbuild (by decide))).run
    (e := .build .text "two" [] []) (hbuild (by decide)))
  have hbuilt := (htexts.run (e := .build (.element "ul") "" [("class", "list")] [⟨0⟩])
    (hbuild (by decide))).run (e := .build .fragment "" [] [⟨1⟩, ⟨2⟩]) (hbuild (by decide))
  have hreplaced := hbuilt.run (e := .replace ⟨0⟩ ⟨4⟩) ⟨by decide, Edit.noConfusion, fun p hp ↦ by
    obtain rfl : (⟨3⟩ : NodeId) = p := Option.some.inj hp
    exact not_above_of_top (by decide) (by decide)⟩
  have hitem := hreplaced.run (e := .append ⟨3⟩ ⟨0⟩)
    ⟨by decide, by rintro _ _ ⟨⟩; decide, not_above_of_top (by decide) (by decide)⟩
  have hall := hitem.run (e := .append ⟨3⟩ ⟨1⟩)
    ⟨by decide, by rintro _ _ ⟨⟩; decide, not_above_of_top (by decide) (by decide)⟩
  exact ⟨_, hall, (forest_of_reaches hall).1, by decide⟩

end NodeStore

end LiveMarkup
