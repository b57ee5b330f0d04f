import LiveMarkup.Proofs.Live.Drawing
import LiveMarkup.Proofs.Live.Templates

/-!
# What execution leaves behind

With the directives of this library, carrying out the program of a template on a live tree draws a
picture of what the template renders to (`Compiler.draws_compile`). The proof follows the tree, as
the program does. What it has to carry along is where new nodes may be: a text gives its place to
texts that did not exist before, so that the row above it is not the row that was compiled, and the
siblings that are still to be worked on have to be found in it.
-/

namespace LiveMarkup

variable {C H : Type}

namespace Compiler

variable (c : Compiler C)

/-- To show what templates render to. -/
def designAll (frozen : String → Value) (ts : List (Tree NodeId)) : Design where
  target field := c.renderAll field frozen ts
  heads := c.headsAll ts
  simple := ∀ attrs ∈ Tree.attributeListsAll ts, c.Undirected attrs
  sketch := c.sketchAll frozen ts

variable {c}

theorem designAll_cons (frozen : String → Value) (t : Tree NodeId) (ts : List (Tree NodeId)) :
    c.designAll frozen (t :: ts) = (c.designAll frozen [t]).append (c.designAll frozen ts) := by
  simp [designAll, Design.append, renderAll, headsAll, Tree.attributeListsAll, or_imp,
    forall_and, sketchAll, Sketch.append_still_nil]

end Compiler

/-! ## Rows of nodes -/

namespace State.Draws

variable {vm : ViewModelId} {q : Option NodeId} {X : List NodeId} {D : Design} {P : Picture}
  {st st₁ : LiveState C H}

/-- What code holds meanwhile does not matter. -/
theorem withHoldings {hs : List (List (Held C))} (h : (st.withHoldings hs).Draws vm q X D P st₁)
    (hs' : List (List (Held C))) : st.Draws vm q X D P (st₁.withHoldings hs') where
  installs := by
    have hbefore : st.Installs vm [] (st.withHoldings hs) := .of_world vm rfl rfl
    exact (hbefore.of_trans_nil h.installs).trans_nil (.of_world vm rfl rfl)
  fits := h.fits
  shows := h.shows
  agrees := h.agrees

theorem lt_of_mem_labels (h : st.Draws vm q X D P st₁) {n : NodeId} (hn : n ∈ P.labels) :
    n.index < st₁.world.nodes.size := by
  obtain ⟨v, hv⟩ := Picture.exists_current h.installs.nodup (st.fieldValue vm)
  exact (h.shows v hv).lt_of_mem_labelsAll (h.fits.sound.labels v ▸ hn)

end State.Draws

/-- An old node that is not among given ones is not in a picture of these and of new ones. -/
theorem Picture.not_mem_labels {P : Picture} {ns : List NodeId} {k : Nat} {n : NodeId}
    (h : ∀ m ∈ P.labels, m ∈ ns ∨ k ≤ m.index) (hn : n ∉ ns) (hlt : n.index < k) :
    n ∉ P.labels := by
  intro hmem
  rcases h n hmem with hns | hge
  · exact hn hns
  · exact absurd hlt (Nat.not_lt.mpr hge)

namespace Runner

/-- Whether code ends without failing, and has then drawn a design in the place of trees, between
`pre` and `post` among the children of `p`, with no nodes but theirs and new ones. -/
def DrawsRow (r : LiveRunner C H) (limit : Nat) (scope : Scope) (code : Linking C H Unit)
    (p : NodeId) (pre post : List NodeId) (ts : List (Tree NodeId)) (D : Design)
    (st : LiveState C H) : Prop :=
  ∃ st' P, r.Links limit code st () st' ∧
    st.Draws scope.vm (some p) (p :: Tree.labelsAll ts) D P st' ∧
    (∀ m ∈ P.labels, m ∈ Tree.labelsAll ts ∨ st.world.nodes.size ≤ m.index) ∧
    st'.world.nodes.get p = { st.world.nodes.get p with children := pre ++ P.roots ++ post }

namespace DrawsRow

variable {r : LiveRunner C H} {limit : Nat} {scope : Scope} {p : NodeId} {pre post : List NodeId}
  {ts : List (Tree NodeId)} {D E : Design} {st : LiveState C H}

/-- Trees that show what they should may be left alone. -/
theorem still (hst : st.world.nodes.Shows id (Tree.asNodesAll (some p) ts))
    (hts : (Tree.labelsAll ts).Nodup)
    (hrow : (st.world.nodes.get p).children = pre ++ ts.map Tree.label ++ post)
    (hsketch : D.sketch = .still (Tree.mapAll (fun _ ↦ ()) ts))
    (htarget : ∀ field, Tree.markupAll ts = Tree.markupAll (D.target field) ∧
      ts.isEmpty = (D.target field).isEmpty) :
    r.DrawsRow limit scope (pure ()) p pre post ts D st := by
  refine ⟨st, .still ts, Runner.Links.done () st, ?_, fun _ hm ↦ .inl hm, ?_⟩
  · exact (State.Draws.still (.of_world scope.vm rfl rfl) rfl hts hsketch htarget hst).mono
      (List.nil_subset _)
  · change _ = { st.world.nodes.get p with children := pre ++ ts.map Tree.label ++ post }
    rw [← hrow]

/-- A row is drawn from the left to the right. -/
theorem cons {t : Tree NodeId} {code code' : Linking C H Unit}
    (h : r.DrawsRow limit scope code p pre (ts.map Tree.label ++ post) [t] D st)
    (hst : st.world.nodes.Shows id (Tree.asNodesAll (some p) (t :: ts)))
    (hnodup : (p :: Tree.labelsAll (t :: ts)).Nodup) (hp : p.index < st.world.nodes.size)
    (h' : ∀ (st₁ : LiveState C H) (roots : List NodeId),
      st.world.nodes.size ≤ st₁.world.nodes.size →
      st₁.world.nodes.Shows id (Tree.asNodesAll (some p) ts) →
      (st₁.world.nodes.get p).children = (pre ++ roots) ++ ts.map Tree.label ++ post →
      List.Disjoint (ts.map Tree.label) roots → st₁.world.viewModel = st.world.viewModel →
      st₁.fieldValue scope.vm = st.fieldValue scope.vm →
      r.DrawsRow limit scope code' p (pre ++ roots) post ts E st₁) :
    r.DrawsRow limit scope (code >>= fun _ ↦ code') p pre post (t :: ts) (D.append E) st := by
  rw [Tree.asNodesAll, NodeStore.shows_append] at hst
  obtain ⟨-, hrest⟩ := hst
  obtain ⟨hpnot, hall⟩ := List.nodup_cons.mp hnodup
  rw [Tree.labelsAll, List.mem_append, not_or] at hpnot
  rw [Tree.labelsAll, List.nodup_append'] at hall
  obtain ⟨-, -, hdisjoint⟩ := hall
  obtain ⟨st₁, P, hlinks, hdraws, hlabels, hrow⟩ := h
  rw [Tree.labelsAll_singleton] at hdraws hlabels
  have hold {m : NodeId} (hm : m ∈ Tree.labelsAll ts) : m.index < st.world.nodes.size :=
    hrest.lt_of_mem_labelsAll hm
  -- What is drawn first is of the first tree or new, so the other trees stand as they stood.
  have hP (m : NodeId) (hm : m ∈ P.labels) : m ∉ p :: Tree.labelsAll ts := by
    intro hc
    rcases hlabels m hm with ht | hge
    · rcases List.mem_cons.mp hc with rfl | hts
      · exact hpnot.1 ht
      · exact hdisjoint ht hts
    · rcases List.mem_cons.mp hc with rfl | hts
      · exact absurd hp (Nat.not_lt.mpr hge)
      · exact absurd (hold hts) (Nat.not_lt.mpr hge)
  have hroots : List.Disjoint (ts.map Tree.label) P.roots := by
    intro m hm hmP
    have hmP : m ∈ P.labels := (Tree.map_label_sublist_labelsAll _).subset hmP
    exact hP m hmP (List.mem_cons_of_mem p ((Tree.map_label_sublist_labelsAll ts).subset hm))
  obtain ⟨st₂, Q, hlinks', hdraws', hlabels', hrow'⟩ := h' st₁ P.roots hdraws.agrees.size
    (hrest.of_agrees hdraws.agrees fun x hx hmem ↦ by
      have hx := Tree.mem_labelsAll_of_mem_asNodesAll hx
      rcases List.mem_cons.mp hmem with hxp | ht
      · exact hpnot.2 (hxp ▸ hx)
      · exact hdisjoint ht hx)
    (by rw [hrow, List.append_assoc (pre ++ P.roots)]) hroots (funext hdraws.installs.viewModel_eq)
    (hdraws.installs.fieldValue _)
  refine ⟨st₂, P.append Q, hlinks.bind hlinks', ?_, fun m hm ↦ ?_, ?_⟩
  · refine hdraws.append hdraws' (fun m hm hmQ ↦ ?_) hP ?_ ?_
    · rcases hlabels' m hmQ with hts | hge
      · exact hP m hm (List.mem_cons_of_mem p hts)
      · exact absurd (hdraws.lt_of_mem_labels hm) (Nat.not_lt.mpr hge)
    · exact List.cons_subset_cons p (List.subset_append_left ..)
    · exact List.cons_subset_cons p (List.subset_append_right ..)
  · rw [Picture.labels_append, List.mem_append] at hm
    rw [Tree.labelsAll, List.mem_append]
    rcases hm with hm | hm
    · exact (hlabels m hm).imp_left .inl
    · exact (hlabels' m hm).imp .inr (Nat.le_trans hdraws.agrees.size)
  · rw [hrow', hrow, Picture.roots_append, ← List.append_assoc pre P.roots Q.roots]

end DrawsRow

/-- Whether code ends without failing, and has then drawn a design in the place of a tree whose root
stays, with no nodes but those of the tree and new ones. -/
def DrawsTree (r : LiveRunner C H) (limit : Nat) (scope : Scope) (code : Linking C H Unit)
    (q : Option NodeId) (t : Tree NodeId) (D : Design) (st : LiveState C H) : Prop :=
  ∃ st' P, r.Links limit code st () st' ∧ st.Draws scope.vm q t.labels D P st' ∧
    (∀ m ∈ P.labels, m ∈ t.labels ∨ st.world.nodes.size ≤ m.index) ∧ P.roots = [t.label] ∧
    ∀ v, (P.forest v).map Tree.kind = [t.kind]

namespace DrawsTree

variable {r : LiveRunner C H} {limit : Nat} {scope : Scope} {code : Linking C H Unit}
  {q : Option NodeId} {t : Tree NodeId} {D E : Design} {st : LiveState C H}

/-- A tree whose root stays is drawn as a row of one tree. -/
theorem row {p : NodeId} {pre post : List NodeId}
    (h : r.DrawsTree limit scope code (some p) t D st) (hp : p.index < st.world.nodes.size)
    (hpt : p ∉ t.labels) (hrow : (st.world.nodes.get p).children = pre ++ t.label :: post) :
    r.DrawsRow limit scope code p pre post [t] D st := by
  obtain ⟨st', P, hlinks, hdraws, hlabels, hroots, -⟩ := h
  have hp : st'.world.nodes.get p = st.world.nodes.get p := hdraws.agrees.get p hp hpt
  refine ⟨st', P, hlinks, ?_, ?_, ?_⟩
  · rw [Tree.labelsAll_singleton]
    exact hdraws.mono (List.subset_cons_self ..)
  · rwa [Tree.labelsAll_singleton]
  · rw [hp, hroots, List.append_assoc, List.singleton_append, ← hrow]

theorem of_eq (h : r.DrawsTree limit scope code q t D st)
    (htarget : ∀ field, D.target field = E.target field)
    (hsimple : E.simple → D.simple ∧ D.heads ⊆ E.heads) (hsketch : D.sketch = E.sketch) :
    r.DrawsTree limit scope code q t E st := by
  obtain ⟨st', P, hlinks, hdraws, hrest⟩ := h
  refine ⟨st', P, hlinks, hdraws.of_eq (fun field ↦ ?_) hsimple hsketch, hrest⟩
  rw [htarget field]
  exact ⟨rfl, rfl⟩

end DrawsTree

end Runner

/-! ## Texts and comments -/

namespace Compiler

variable {c : Compiler C} (client : Client C H) (fuel limit : Nat) {scope : Scope}

theorem any_isSlot_of_hasExpression (hc : c.registry = .builtin) {data : List Char}
    (h : Interpolation.hasExpression data = true) :
    ((Interpolation.tokenize data).map c.piece).any Piece.isSlot = true := by
  rw [Interpolation.hasExpression_eq] at h
  obtain ⟨token, htoken, hexpression⟩ := List.any_eq_true.mp h
  refine List.any_eq_true.mpr ⟨c.piece token, List.mem_map_of_mem htoken, ?_⟩
  cases token with
  | literal text => contradiction
  | expression source =>
    rw [piece_expression hc]
    rfl

/-- The program of a node without children is its own. -/
theorem compile_fst_of_leaf (c : Compiler C) (n : NodeId) (kind : NodeKind) (attrs : Attributes)
    (data : String) :
    (c.compile (.node n kind attrs data [])).1 =
      (c.compileNode (.node n kind attrs data [])).1 := by
  rw [compile_fst]
  split
  · exact combine?_none _
  · exact combine?_none _

/-- A text in a row of nodes is drawn. -/
theorem draws_text (hc : c.registry = .builtin) {n p : NodeId} {attrs : Attributes} {data : String}
    {pre post : List NodeId} (st : LiveState C H)
    (hst : st.world.nodes.Shows id (Tree.asNodesAll (some p) [.node n .text attrs data []]))
    (hnp : n ≠ p) (hp : p.index < st.world.nodes.size)
    (hrow : (st.world.nodes.get p).children = pre ++ n :: post) (hpre : n ∉ pre)
    (hgone : (st.world.viewModel scope.vm).gone = false) :
    (client.meaning.runner (fuel + 1)).DrawsRow limit scope
      (Program.linkAny scope n (c.compile (.node n .text attrs data [])).1) p pre post
      [.node n .text attrs data []]
      (c.designAll (st.fieldValue scope.vm) [.node n .text attrs data []]) st := by
  have hrender (field : String → Value) :
      (c.designAll (st.fieldValue scope.vm) [.node n .text attrs data []]).target field =
        [.node n .text attrs (String.ofList (Interpolation.textWith field data.toList)) []] := rfl
  have hown : (c.compileNode (.node n .text attrs data [])).1 = (c.compileText n data).1 := rfl
  have hsketch := c.sketchAll_singleton (st.fieldValue scope.vm) (.node n .text attrs data [])
  rw [sketch] at hsketch
  rw [compile_fst_of_leaf, hown, compileText_fst]
  cases hdata : Interpolation.hasExpression data.toList with
  | false =>
    rw [hdata] at hsketch
    rw [Bool.false_and, if_neg Bool.false_ne_true, Program.linkAny]
    refine .still hst (List.nodup_singleton n) ?_ hsketch fun field ↦ ?_
    · rw [hrow, List.append_assoc]
      rfl
    · rw [hrender, Interpolation.textWith_of_hasExpression hdata, String.ofList_toList]
      exact ⟨rfl, rfl⟩
  | true =>
    rw [hdata] at hsketch
    rw [any_isSlot_of_hasExpression hc hdata, Bool.and_self, if_pos rfl, Program.linkAny]
    obtain ⟨hlt, hget⟩ := hst _ List.mem_cons_self
    have hplaced : st.world.nodes.Placed n p pre post :=
      ⟨hlt, hnp, congrArg Node.parent hget, hrow, hpre⟩
    obtain ⟨st', P, hlinks, hdraws, hlabels, hrow⟩ :=
      client.draws_text fuel limit hc hdata st hplaced hp hgone
    refine ⟨st', P, hlinks, hdraws.of_eq (fun field ↦ ⟨?_, rfl⟩) (fun _ ↦ ⟨trivial, ?_⟩)
      hsketch.symm, fun m hm ↦ .inr (hlabels m hm), hrow⟩
    · rfl
    · exact List.subset_append_left ..

/-- A comment in a row of nodes is left alone. -/
theorem draws_comment {n p : NodeId} {attrs : Attributes} {data : String} {pre post : List NodeId}
    (st : LiveState C H)
    (hst : st.world.nodes.Shows id (Tree.asNodesAll (some p) [.node n .comment attrs data []]))
    (hrow : (st.world.nodes.get p).children = pre ++ n :: post) :
    (client.meaning.runner (fuel + 1)).DrawsRow limit scope
      (Program.linkAny scope n (c.compile (.node n .comment attrs data [])).1) p pre post
      [.node n .comment attrs data []]
      (c.designAll (st.fieldValue scope.vm) [.node n .comment attrs data []]) st := by
  have hown : (c.compileNode (.node n .comment attrs data [])).1 = none := rfl
  rw [compile_fst_of_leaf, hown, Program.linkAny]
  refine .still hst (List.nodup_singleton n) ?_ (c.sketchAll_singleton _ _) fun field ↦ ⟨rfl, rfl⟩
  rw [hrow, List.append_assoc]
  rfl

/-! ## Elements -/

/-- The program of the attributes of an element applies their directives. -/
theorem links_ofDirectives? {r : LiveRunner C H} {limit : Nat} {n : NodeId}
    {as : List (Application C)} {st st' : LiveState C H}
    (h : r.Links limit (Application.applyAll scope n as) st () st') :
    r.Links limit (Program.linkAny scope n (Program.ofDirectives? as)) st () st' := by
  cases as with
  | nil => exact h
  | cons a as =>
    rw [Program.ofDirectives?, Program.linkAny, Program.link]
    exact (Runner.Links.ofExcept rfl st).bind h

/-- An element is drawn by working off its attributes and then drawing what is below it. -/
theorem draws_around (hc : c.registry = .builtin) {n : NodeId} {tag : String} {attrs : Attributes}
    {data : String} {children : List (Tree NodeId)} {q : Option NodeId}
    (hattrs : ∀ x ∈ attrs, c.Renderable x.1 x.2) (st : LiveState C H)
    (hst : st.world.nodes.Shows id ((Tree.node n (.element tag) attrs data children).asNodes q))
    (hnodup : (n :: Tree.labelsAll children).Nodup)
    (hgone : (st.world.viewModel scope.vm).gone = false) (below : Option (Program C)) (D : Design)
    (h : ∀ st₁ : LiveState C H, st₁.world.nodes.size = st.world.nodes.size →
      st₁.world.nodes.Shows id (Tree.asNodesAll (some n) children) →
      (st₁.world.nodes.get n).children = children.map Tree.label →
      st₁.world.viewModel = st.world.viewModel →
      st₁.fieldValue scope.vm = st.fieldValue scope.vm →
      (client.meaning.runner (fuel + 1)).DrawsRow limit scope (Program.linkAny scope n below) n []
        [] children D st₁) :
    (client.meaning.runner (fuel + 1)).DrawsTree limit scope
      (Program.linkAny scope n
        (Program.combine? (Program.ofDirectives? (c.applications attrs)) below))
      q (.node n (.element tag) attrs data children) (c.element D n tag attrs data) st := by
  obtain ⟨hn, -⟩ := List.nodup_cons.mp hnodup
  rw [Tree.asNodes, NodeStore.shows_cons] at hst
  obtain ⟨⟨hlt, hget⟩, hbelow⟩ := hst
  have hget : st.world.nodes.get n = _ := hget
  obtain ⟨st₁, own, hlinks, hinstalls, hown, hplace, hnodes⟩ :=
    client.links_applyAll fuel limit (n := n) hc hattrs st hgone
  have hagrees : st.world.nodes.Agrees id [n] st₁.world.nodes :=
    hnodes ▸ NodeStore.agrees_modify _ n _
  have hget₁ : st₁.world.nodes.get n = {
      kind := .element tag, attrs := c.renderAttributes (st.fieldValue scope.vm) attrs, data,
      children := children.map Tree.label, parent := q } := by
    rw [hnodes, NodeStore.get_modify_self hlt, hget, c.renderAttributes_eq _ attrs scope.vm n]
    rfl
  have hbelow₁ : st₁.world.nodes.Shows id (Tree.asNodesAll (some n) children) := by
    refine hbelow.of_agrees hagrees fun x hx hmem ↦ hn ?_
    exact List.mem_singleton.mp hmem ▸ Tree.mem_labelsAll_of_mem_asNodesAll hx
  have hsize : st₁.world.nodes.size = st.world.nodes.size := by rw [hnodes, NodeStore.size_modify]
  obtain ⟨st₂, P, hlinks', hdraws, hlabels, hrow⟩ := h st₁ hsize hbelow₁ (by rw [hget₁])
    (funext hinstalls.viewModel_eq) (hinstalls.fieldValue _)
  have hnP : n ∉ P.labels := Picture.not_mem_labels hlabels hn (hsize ▸ hlt)
  refine ⟨st₂, P.below n (.element tag) attrs data own, links_combine? (links_ofDirectives? hlinks)
    hlinks', .element hc hown hplace (hinstalls.trans hdraws.installs) hdraws.fits (fun v hv ↦ ?_)
    hnP ?_ ?_ ?_, fun m hm ↦ ?_, rfl, fun _ ↦ rfl⟩
  · exact hdraws.shows v (hinstalls.fieldValue scope.vm ▸ hv)
  · exact Nat.lt_of_lt_of_le (hsize ▸ hlt) hdraws.agrees.size
  · rw [hrow, hget₁, List.nil_append, List.append_nil]
  · exact (hagrees.mono (List.cons_subset_cons n (List.nil_subset _))).trans hdraws.agrees
  · rw [Picture.labels_below] at hm
    rcases List.mem_cons.mp hm with rfl | hm
    · exact .inl List.mem_cons_self
    · rw [← hsize]
      exact (hlabels m hm).imp_left (List.mem_cons_of_mem n)

/-! ## Templates -/

/-- What is below a node is drawn once the row of its children is, whatever is held meanwhile. -/
theorem draws_children {r : LiveRunner C H} {limit : Nat} {n : NodeId}
    {children : List (Tree NodeId)} {D : Design} {st : LiveState C H}
    (hn : (st.world.nodes.get n).children = children.map Tree.label)
    (h : ∀ hs, r.DrawsRow limit scope (Program.linkEach scope (children.map Tree.label)
      (children.map fun t ↦ (c.compile t).1)) n [] [] children D (st.withHoldings hs)) :
    r.DrawsRow limit scope
      (Program.linkAny scope n (siblings? (children.map fun t ↦ (c.compile t).1))) n [] []
      children D st := by
  cases hq : siblings? (children.map fun t ↦ (c.compile t).1) with
  | none =>
    obtain ⟨st', P, hlinks, hdraws, hrest⟩ := h st.world.holdings
    rw [linkEach_of_none ((siblings?_eq_none_iff _).mp hq) (by simp only [List.length_map])]
      at hlinks
    exact ⟨st', P, hlinks, hdraws, hrest⟩
  | some q =>
    obtain ⟨st', P, hlinks, hdraws, hrest⟩ :=
      h ((children.map Tree.label).map Held.node :: st.world.holdings)
    exact ⟨_, P, links_siblings? hq hn (by simp only [List.length_map]) hlinks,
      hdraws.withHoldings _, hrest⟩

/-- An element is drawn, if the row of its children is. -/
theorem draws_element (hc : c.registry = .builtin) {n : NodeId} {tag : String} {attrs : Attributes}
    {data : String} {children : List (Tree NodeId)} {q : Option NodeId}
    (hattrs : ∀ x ∈ attrs, c.Renderable x.1 x.2) (st : LiveState C H)
    (hst : st.world.nodes.Shows id ((Tree.node n (.element tag) attrs data children).asNodes q))
    (hnodup : (n :: Tree.labelsAll children).Nodup)
    (hgone : (st.world.viewModel scope.vm).gone = false)
    (h : ∀ st₁ : LiveState C H, n.index < st₁.world.nodes.size →
      st₁.world.nodes.Shows id (Tree.asNodesAll (some n) children) →
      (st₁.world.nodes.get n).children = children.map Tree.label →
      st₁.world.viewModel = st.world.viewModel →
      (client.meaning.runner (fuel + 1)).DrawsRow limit scope
        (Program.linkAny scope n (siblings? (children.map fun t ↦ (c.compile t).1))) n [] []
        children (c.designAll (st₁.fieldValue scope.vm) children) st₁) :
    (client.meaning.runner (fuel + 1)).DrawsTree limit scope
      (Program.linkAny scope n (c.compile (.node n (.element tag) attrs data children)).1) q
      (.node n (.element tag) attrs data children)
      (c.designAll (st.fieldValue scope.vm) [.node n (.element tag) attrs data children]) st := by
  have howner : c.owner? attrs = none := c.terminal?_eq_owner? attrs ▸ terminal?_builtin hc attrs
  have hrender (field : String → Value) :=
    c.render_element field (st.fieldValue scope.vm) n tag attrs data children
  have hheads := c.heads_element n tag attrs data children
  have hsketch := c.sketchAll_singleton (st.fieldValue scope.vm)
    (.node n (.element tag) attrs data children)
  rw [sketch_element] at hsketch
  have hsubset {heads : List String} (h : c.heads (.node n (.element tag) attrs data children) =
      c.attributeHeads attrs ++ heads) : c.attributeHeads attrs ++ heads ⊆
      (c.designAll (st.fieldValue scope.vm) [.node n (.element tag) attrs data children]).heads :=
    h ▸ List.subset_append_left ..
  have hmem : attrs ∈ Tree.attributeListsAll [.node n (.element tag) attrs data children] :=
    List.mem_append_left _ List.mem_cons_self
  rw [compile_fst, compileNode_fst_of_owner?_none c howner, byPriority_applications hc]
  cases hresolved : isResolved (.node n (.element tag) attrs data children) with
  | true =>
    -- A text area: what is below it has become its text.
    rw [hresolved, script_of_isResolved hresolved] at hrender hheads hsketch
    obtain ⟨st', P, hlinks, hdraws, hlabels, hroot⟩ :=
      client.draws_textarea fuel limit hc hattrs st hst hnodup hgone
    have hdrawn : (client.meaning.runner (fuel + 1)).DrawsTree limit scope
        (Program.linkAny scope n (some (.textarea (c.applications attrs)))) q
        (.node n (.element tag) attrs data children) _ st :=
      ⟨st', P, hlinks, hdraws,
        fun m hm ↦ (hlabels m hm).imp_left fun he ↦ List.mem_cons.mpr (.inl he), hroot⟩
    have hterminal :
        (some (Program.textarea (c.applications attrs))).any Program.isTerminal = true := rfl
    rw [if_pos rfl, hterminal, Bool.true_or, if_pos rfl]
    exact hdrawn.of_eq (fun field ↦ congrArg (fun t ↦ [t]) (hrender field).symm)
      (fun hsimple ↦ ⟨⟨hsimple attrs hmem, trivial⟩, hsubset hheads⟩) hsketch.symm
  | false =>
    rw [hresolved] at hrender hheads hsketch
    rw [if_neg Bool.false_ne_true, any_isTerminal_ofDirectives?, Bool.false_or]
    have haround := draws_around client fuel limit hc hattrs st hst hnodup hgone
    cases hscript : equalIgnoringCase tag "script" with
    | true =>
      -- What is below a script is left as it was written.
      rw [hscript] at hrender hheads hsketch
      have htag : (NodeKind.element tag).hasTag "script" = true := hscript
      have hdrawn := haround none (.fixed children) fun st₁ _ hst₁ hrow _ _ ↦
        .still hst₁ (List.nodup_cons.mp hnodup).2 (by rw [hrow]; simp) rfl fun _ ↦ ⟨rfl, rfl⟩
      rw [htag, if_pos rfl]
      exact hdrawn.of_eq (fun field ↦ congrArg (fun t ↦ [t]) (hrender field).symm)
        (fun hsimple ↦ ⟨⟨hsimple attrs hmem, trivial⟩, hsubset hheads⟩) hsketch.symm
    | false =>
      rw [hscript] at hrender hheads hsketch
      have htag : (NodeKind.element tag).hasTag "script" = false := hscript
      obtain ⟨⟨hlt, -⟩, -⟩ := NodeStore.shows_cons.mp hst
      have hdrawn := haround _ (c.designAll (st.fieldValue scope.vm) children)
        fun st₁ hsize hst₁ hrow hvm hfield ↦ hfield ▸ h st₁ (hsize ▸ hlt) hst₁ hrow hvm
      rw [htag, if_neg Bool.false_ne_true]
      refine hdrawn.of_eq (fun field ↦ congrArg (fun t ↦ [t]) (hrender field).symm)
        (fun hsimple ↦ ⟨⟨hsimple attrs hmem, fun as has ↦ hsimple as ?_⟩, hsubset hheads⟩)
        hsketch.symm
      exact List.mem_append_left _ (List.mem_cons_of_mem attrs has)

/-- A fragment is drawn by drawing what is below it. -/
theorem draws_fragment {r : LiveRunner C H} {limit : Nat} {n : NodeId} {attrs : Attributes}
    {data : String} {children : List (Tree NodeId)} {q : Option NodeId} {code : Linking C H Unit}
    {D : Design} {st : LiveState C H}
    (hst : st.world.nodes.Shows id ((Tree.node n .fragment attrs data children).asNodes q))
    (hnodup : (n :: Tree.labelsAll children).Nodup)
    (h : r.DrawsRow limit scope code n [] [] children D st) :
    r.DrawsTree limit scope code q (.node n .fragment attrs data children)
      (D.below n .fragment attrs data [] (fun _ ↦ attrs) [] True) st := by
  obtain ⟨hn, -⟩ := List.nodup_cons.mp hnodup
  rw [Tree.asNodes, NodeStore.shows_cons] at hst
  obtain ⟨⟨hlt, hget⟩, -⟩ := hst
  have hget : st.world.nodes.get n = _ := hget
  obtain ⟨st', P, hlinks, hdraws, hlabels, hrow⟩ := h
  have hnP : n ∉ P.labels := Picture.not_mem_labels hlabels hn hlt
  have hsimple : Touches.Simple [] attrs :=
    ⟨fun _ hx ↦ absurd hx List.not_mem_nil, List.nodup_nil, fun _ hx ↦ absurd hx List.not_mem_nil⟩
  refine ⟨st', P.below n .fragment attrs data [], hlinks, .below hdraws.installs hdraws.fits
    hdraws.shows hnP rfl (fun _ _ _ ↦ rfl) (fun _ hx ↦ absurd hx List.not_mem_nil)
    (fun _ ↦ ⟨hsimple, fun _ hx ↦ absurd hx List.not_mem_nil⟩) ?_ ?_ hdraws.agrees,
    fun m hm ↦ ?_, rfl, fun _ ↦ rfl⟩
  · exact Nat.lt_of_lt_of_le hlt hdraws.agrees.size
  · rw [hrow, hget, List.nil_append, List.append_nil]
    rfl
  · rw [Picture.labels_below] at hm
    rcases List.mem_cons.mp hm with rfl | hm
    · exact .inl List.mem_cons_self
    · exact (hlabels m hm).imp_left (List.mem_cons_of_mem n)

/-- A tree in a row of nodes is drawn, if it is wherever its root stays. -/
theorem draws_first (hc : c.registry = .builtin) {t : Tree NodeId} {p : NodeId}
    {pre post : List NodeId} (st : LiveState C H) (ht : c.Supports [t])
    (hst : st.world.nodes.Shows id (t.asNodes (some p))) (hpt : p ∉ t.labels)
    (hp : p.index < st.world.nodes.size)
    (hrow : (st.world.nodes.get p).children = pre ++ t.label :: post) (hpre : t.label ∉ pre)
    (hgone : (st.world.viewModel scope.vm).gone = false)
    (h : t.kind.isContainer = true → (client.meaning.runner (fuel + 1)).DrawsTree limit scope
      (Program.linkAny scope t.label (c.compile t).1) (some p) t
      (c.designAll (st.fieldValue scope.vm) [t]) st) :
    (client.meaning.runner (fuel + 1)).DrawsRow limit scope
      (Program.linkAny scope t.label (c.compile t).1) p pre post [t]
      (c.designAll (st.fieldValue scope.vm) [t]) st := by
  obtain ⟨n, kind, attrs, data, children⟩ := t
  have hproper := ht.proper
  rw [Tree.ProperAll, Tree.Proper] at hproper
  cases kind with
  | element tag => exact (h rfl).row hp hpt hrow
  | fragment => exact (h rfl).row hp hpt hrow
  | comment =>
    obtain rfl := hproper.1.1 rfl
    rw [← Tree.asNodesAll_singleton] at hst
    exact draws_comment client fuel limit st hst hrow
  | text =>
    obtain rfl := hproper.1.1 rfl
    rw [← Tree.asNodesAll_singleton] at hst
    have hnp : n ≠ p := fun he ↦ hpt (he ▸ List.mem_cons_self)
    exact draws_text client fuel limit hc st hst hnp hp hrow hpre hgone

mutual

/-- **Execution draws what the template renders to.** Carrying out the program of a template on a
live tree of that shape draws a picture of what it renders to. -/
theorem draws_compile (hc : c.registry = .builtin) (t : Tree NodeId) (q : Option NodeId)
    (st : LiveState C H) (hkind : t.kind.isContainer = true) (hbelow : c.Supports t.children)
    (hroot : ∀ tag, t.kind = .element tag → ∀ x ∈ t.attrs, c.Renderable x.1 x.2)
    (hst : st.world.nodes.Shows id (t.asNodes q)) (hnodup : t.labels.Nodup)
    (hgone : (st.world.viewModel scope.vm).gone = false) :
    (client.meaning.runner (fuel + 1)).DrawsTree limit scope
      (Program.linkAny scope t.label (c.compile t).1) q t
      (c.designAll (st.fieldValue scope.vm) [t]) st := by
  obtain ⟨n, kind, attrs, data, children⟩ := t
  -- The row of children is the whole row below the node, wherever its attributes have got to.
  have hchildren (st₁ : LiveState C H) (hlt : n.index < st₁.world.nodes.size)
      (hst₁ : st₁.world.nodes.Shows id (Tree.asNodesAll (some n) children))
      (hrow : (st₁.world.nodes.get n).children = children.map Tree.label)
      (hgone₁ : (st₁.world.viewModel scope.vm).gone = false) :
      (client.meaning.runner (fuel + 1)).DrawsRow limit scope
        (Program.linkAny scope n (siblings? (children.map fun t ↦ (c.compile t).1))) n [] []
        children (c.designAll (st₁.fieldValue scope.vm) children) st₁ := by
    refine draws_children hrow fun hs ↦ draws_row hc children n [] [] (st₁.withHoldings hs) hbelow
      hst₁ hnodup hlt ?_ (List.disjoint_nil_right _) hgone₁
    rw [List.nil_append, List.append_nil]
    exact hrow
  cases kind with
  | text => contradiction
  | comment => contradiction
  | fragment =>
    have hown : (c.compileNode (.node n .fragment attrs data children)).1 = none := rfl
    have hsketch := c.sketchAll_singleton (st.fieldValue scope.vm)
      (.node n .fragment attrs data children)
    rw [sketch] at hsketch
    rw [compile_fst, hown]
    obtain ⟨⟨hlt, hget⟩, hbelow⟩ := NodeStore.shows_cons.mp hst
    refine (draws_fragment hst hnodup (hchildren st hlt hbelow (congrArg Node.children hget)
      hgone)).of_eq (fun _ ↦ rfl) (fun hsimple ↦ ⟨⟨trivial, fun as has ↦ hsimple as ?_⟩, ?_⟩)
      hsketch.symm
    · exact List.mem_append_left _ has
    · exact List.subset_append_left ..
  | element tag =>
    exact draws_element client fuel limit hc (hroot tag rfl) st hst hnodup hgone
      fun st₁ hlt hst₁ hrow hvm ↦ hchildren st₁ hlt hst₁ hrow (hvm ▸ hgone)

theorem draws_row (hc : c.registry = .builtin) (ts : List (Tree NodeId)) (p : NodeId)
    (pre post : List NodeId) (st : LiveState C H) (hts : c.Supports ts)
    (hst : st.world.nodes.Shows id (Tree.asNodesAll (some p) ts))
    (hnodup : (p :: Tree.labelsAll ts).Nodup) (hp : p.index < st.world.nodes.size)
    (hrow : (st.world.nodes.get p).children = pre ++ ts.map Tree.label ++ post)
    (hpre : List.Disjoint (ts.map Tree.label) pre)
    (hgone : (st.world.viewModel scope.vm).gone = false) :
    (client.meaning.runner (fuel + 1)).DrawsRow limit scope
      (Program.linkEach scope (ts.map Tree.label) (ts.map fun t ↦ (c.compile t).1)) p pre post ts
      (c.designAll (st.fieldValue scope.vm) ts) st := by
  match ts with
  | [] =>
    rw [List.map_nil, List.map_nil, linkEach_of_none (fun _ h ↦ absurd h List.not_mem_nil) rfl]
    exact .still hst List.nodup_nil hrow rfl fun _ ↦ ⟨rfl, rfl⟩
  | t :: ts =>
    obtain ⟨ht, hrest⟩ := hts.cons
    have hrow' :
        (st.world.nodes.get p).children = pre ++ t.label :: (ts.map Tree.label ++ post) := by
      rw [hrow, List.map_cons, List.append_assoc, List.cons_append]
    rw [List.map_cons, List.map_cons, linkEach_cons, designAll_cons]
    refine Runner.DrawsRow.cons ?_ hst hnodup hp
      fun st₁ roots hsize hst₁ hrow₁ hroots hvm hfield ↦ ?_
    · rw [Tree.asNodesAll, NodeStore.shows_append] at hst
      obtain ⟨hnot, hall⟩ := List.nodup_cons.mp hnodup
      rw [Tree.labelsAll, List.mem_append, not_or] at hnot
      rw [Tree.labelsAll] at hall
      have ht' := List.Nodup.of_append_left hall
      exact draws_first client fuel limit hc st ht hst.1 hnot.1 hp hrow' (hpre List.mem_cons_self)
        hgone fun hkind ↦
          draws_compile hc t (some p) st hkind ht.children (fun _ ↦ ht.root) hst.1 ht' hgone
    · -- The roots that came of the first tree now stand before the rest.
      rw [← hfield]
      refine draws_row hc ts p (pre ++ roots) post st₁ hrest hst₁ ?_
        (Nat.lt_of_lt_of_le hp hsize) hrow₁ ?_ (hvm ▸ hgone)
      · exact hnodup.sublist ((List.sublist_append_right ..).cons_cons p)
      · exact List.disjoint_append_right.mpr ⟨fun m hm ↦ hpre (List.mem_cons_of_mem _ hm), hroots⟩

end

end Compiler

end LiveMarkup
