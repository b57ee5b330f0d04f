import LiveMarkup.Proofs.Live.Current
import LiveMarkup.Proofs.Live.Execution
import LiveMarkup.Proofs.Live.Fields
import LiveMarkup.Proofs.Live.Fragments
import LiveMarkup.Proofs.Live.Outcome

/-!
# Mounting

A component whose template is read from a source has the fragment that was read and its program,
and nothing else has changed (`Runner.Yields.ofSource`). Mounting plants a copy of the fragment, on
which the program draws what the template renders to, and moves what is below the copy to the node.
So the nodes that are put there show what the direct renderer makes of the source
(`Compiler.mount_renders`).
-/

namespace LiveMarkup

variable {C H : Type}

/-! ## Components from sources -/

/-- Whether a component shows a view-model and has a template that stands somewhere by itself, with
the program that a compiler makes of it, and is not mounted. -/
structure World.Ready (w : World C H) (c : Compiler C) (component : ComponentId) (vm : ViewModelId)
    (t : Tree NodeId) : Prop where
  vm : (w.component component).vm = vm
  template : (w.component component).template = some t.label
  program : (w.component component).program = (c.compile t).1
  mounted : (w.component component).mounted = none
  shows : w.nodes.Shows id (t.asNodes none)
  nodup : t.labels.Nodup

theorem World.component_addComponent (w : World C H) (component : Component C) :
    (w.addComponent component).2.component (w.addComponent component).1 = component := by
  simp [World.addComponent, World.component]

namespace Runner.Yields

/-- Compiling what stands at a node answers its program, hands out identities and keeps reports. -/
theorem compile (compiler : CompilerId) {t : Tree NodeId} {p : Option NodeId}
    (st : LiveState C H) (ht : st.world.nodes.Shows id (t.asNodes p)) (hnodup : t.labels.Nodup) :
    ∃ s compilers, (∀ (r : LiveRunner C H) limit,
        r.Yields limit (Live.compile compiler t.label) st
          ((st.world.compiler compiler).compiler.compile t).1
          (st.withWorld { st.world with nodes := s, compilers })) ∧
      st.world.nodes.Agrees id [] s := by
  have htree := NodeStore.tree_of_shows ht hnodup
  let trace := ((st.world.compiler compiler).compiler.compile t).2
  let w := st.world.modifyCompiler compiler fun c ↦
    { c with diagnostics := c.diagnostics ++ trace.diagnostics }
  refine ⟨st.world.nodes.reserve trace.identities, w.compilers, fun r limit ↦ ?_,
    NodeStore.agrees_reserve _ _⟩
  have hrun : r.Yields limit (Live.compile compiler t.label) st _ _ := act _ st
  dsimp only at hrun
  rw [htree] at hrun
  exact hrun

/-- A component whose template is read from a source is ready to be mounted. -/
theorem ofSource {source : String} {ts : List (Tree Unit)} (h : parseMarkup source = .ok ts)
    (name : String) (vm : ViewModelId) (compiler : CompilerId) (st : LiveState C H) :
    ∃ component us w, (∀ (r : LiveRunner C H) limit,
        r.Yields limit (ComponentId.ofSource name vm compiler source) st (.ok component)
          (st.withWorld w)) ∧
      (∃ f, w.Ready (st.world.compiler compiler).compiler component vm (Tree.fragment f us)) ∧
      Tree.mapAll (fun _ ↦ ()) us = Tree.mapAll (fun _ ↦ ()) ts ∧
      w = { st.world with
        nodes := w.nodes, compilers := w.compilers, components := w.components } ∧
      st.world.nodes.Agrees id [] w.nodes := by
  obtain ⟨s, f, us, hparse, hus, hshows, hnodup, hagrees⟩ := parseFragment h st
  obtain ⟨s', compilers, hcompile, hagrees'⟩ :=
    compile compiler (st.withWorld { st.world with nodes := s }) hshows hnodup
  let c := (st.world.compiler compiler).compiler
  let assembled : Component C :=
    ⟨name, vm, some f, (c.compile (Tree.fragment f us)).1, none⟩
  let w := { st.world with nodes := s', compilers }.addComponent assembled
  have hcomponent : w.2.component w.1 = assembled := World.component_addComponent _ _
  have hshows' := hshows.of_agrees hagrees' fun _ _ ↦ List.not_mem_nil
  refine ⟨w.1, us, w.2, fun r limit ↦ ?_, ⟨f, ?_⟩, hus, rfl, hagrees.trans hagrees'⟩
  · exact (hparse r limit).bind (((hcompile r limit).bind (act _ _)).bind (done _ _))
  · constructor
    · rw [hcomponent]
    · rw [hcomponent]
      rfl
    · rw [hcomponent]
    · rw [hcomponent]
    · exact hshows'
    · exact hnodup

/-! ## Mounting a component -/

section

variable {r : LiveRunner C H} {limit : Nat} {st st' : LiveState C H}

/-- A program that can be carried out is mounted on a node that has none. -/
theorem mountProgram {table : TableId} {node n : NodeId} {q? : Option (Program C)} {scope : Scope}
    (h : r.Links limit (Program.linkAny scope n q?) st () st')
    (hfree : (st.world.table table).isMounted node = false) :
    ∃ d, r.Yields limit (table.mount node q? scope (.node n)) st (.ok ())
      (st'.withWorld (st'.world.modifyTable table fun t ↦ t.insert node d)) := by
  obtain ⟨d, hd⟩ : ∃ d, r.Yields limit (Live.execute q? scope (.node n)) st (.ok d) st' :=
    ⟨_, execute h⟩
  refine ⟨d, (ask _ st).bind ?_⟩
  rw [hfree]
  exact hd.bind ((change _ st').bind (done _ _))

/-- Where no hooks wait for a moment, nothing is done at it. -/
theorem runHooks {l : LifecycleId} {moment : Moment}
    (h : ((st.world.lifecycle l).drain moment).1 = []) :
    r.Yields limit (l.run moment) st ()
      (st.withWorld
        (st.world.modifyLifecycle l fun _ ↦ ((st.world.lifecycle l).drain moment).2)) := by
  refine (act _ st).bind ?_
  change r.Yields limit (LifecycleId.performAll ((st.world.lifecycle l).drain moment).1) _ () _
  rw [h]
  exact done () _

/-- Mounting carries out the program of a component on a copy of its template and moves what is
below the copy to the node. -/
theorem mount {c : Compiler C} {component : ComponentId} {vm : ViewModelId} {t : Tree NodeId}
    (hready : st.world.Ready c component vm t)
    (hdisposed : (st.world.viewModel vm).disposed = false)
    {table : TableId} {node copy : NodeId} {s : NodeStore} {owner : Option ViewModelId}
    (hfree : (st.world.table table).isMounted node = false)
    (hcopy : st.world.nodes.plant t = (copy, s))
    (hlinks : r.Links limit (Program.linkAny { vm, owner } copy (c.compile t).1)
      (st.withWorld { st.world with nodes := s, holdings := [.node copy] :: st.world.holdings }) ()
      st')
    (hhooks : (st'.world.lifecycle (st'.world.viewModel vm).lifecycle).mounted = []) :
    ∃ last, r.Yields limit (component.mount table node owner) st (.ok ()) last ∧
      last.world.nodes = st'.world.nodes.append node copy := by
  obtain ⟨hvm, htemplate, hprogram, hmounted, hshows, hnodup⟩ := hready
  have hclone : st.world.nodes.deepClone t.label = (copy, s) := by
    rw [NodeStore.deepClone, NodeStore.tree_of_shows hshows hnodup, hcopy]
  have hedit : r.Yields limit (Live.editWith fun nodes ↦ nodes.deepClone t.label) st copy
      (st.withWorld { st.world with nodes := s }) := by
    have hedit : r.Yields limit (Live.editWith fun nodes ↦ nodes.deepClone t.label) st _ _ :=
      editWith _ st
    rwa [hclone] at hedit
  obtain ⟨d, hmount⟩ := mountProgram hlinks hfree
  subst hvm
  rw [← hprogram] at hmount
  let w₁ := st'.world.modifyTable table fun t ↦ t.insert node d
  let w₂ := (w₁.modifyNodes fun nodes ↦ nodes.append node copy).modifyComponent component fun c ↦
    { c with mounted := some (node, (w₁.nodes.get copy).children) }
  let l := (w₂.viewModel (st.world.component component).vm).lifecycle
  let w₃ := w₂.modifyLifecycle l fun _ ↦ ((w₂.lifecycle l).drain .mounted).2
  let last := st'.withWorld w₃
  have hrun : r.Yields limit (l.run .mounted) (st'.withWorld w₂) () last := runHooks hhooks
  refine ⟨last.withWorld { last.world with holdings := last.world.holdings.tail },
    (ask (fun w ↦ w.component component) st).bind ?_, rfl⟩
  rw [htemplate, hmounted]
  refine (ask _ st).bind ?_
  rw [hdisposed]
  refine (ask _ st).bind ?_
  rw [hfree]
  refine hedit.bind (holding (hmount.bind ?_))
  refine (ask _ _).bind ((edit _ _).bind ((change _ _).bind ((ask _ _).bind ?_)))
  exact hrun.bind (done _ _)

end

end Runner.Yields

/-- A picture with one root, a fragment, shows what it should below the fragment. -/
theorem State.Draws.fragment {vm : ViewModelId} {X : List NodeId} {D : Design} {P : Picture}
    {st st₁ : LiveState C H} {f : NodeId} (h : st.Draws vm none X D P st₁) (hroots : P.roots = [f])
    (hkinds : ∀ v, (P.forest v).map Tree.kind = [.fragment]) :
    ∃ attrs data us, st₁.world.nodes.Shows id ((Tree.node f .fragment attrs data us).asNodes none) ∧
      f :: Tree.labelsAll us = P.labels ∧
      Tree.markupAll us = Tree.markupAll (D.target (st.fieldValue vm)) := by
  obtain ⟨v, hv⟩ := Picture.exists_current h.installs.nodup (st.fieldValue vm)
  have hlabel := (h.fits.sound.roots v).trans hroots
  obtain ⟨u, hu⟩ := List.length_eq_one_iff.mp
    ((List.length_map Tree.label).symm.trans (congrArg List.length hlabel))
  have hshows := h.shows v hv
  have hlabels := h.fits.sound.labels v
  have hmarkup := (h.fits.renders v _ hv).1
  have hkind := hkinds v
  rw [hu] at hlabel hshows hlabels hmarkup hkind
  obtain ⟨n, kind, attrs, data, us⟩ := u
  obtain rfl : n = f := (List.cons.inj hlabel).1
  obtain rfl : kind = .fragment := (List.cons.inj hkind).1
  rw [Tree.asNodesAll_singleton] at hshows
  rw [Tree.labelsAll_singleton] at hlabels
  refine ⟨attrs, data, us, hshows, hlabels, Eq.trans ?_ hmarkup⟩
  exact (List.append_nil _).symm

namespace Compiler

variable {c : Compiler C} (client : Client C H) (fuel : Nat)

/-- Mounting a component puts trees at the end of a node that show what the template renders to, and
changes no other node of before. -/
theorem mount_of_ready (hc : c.registry = .builtin) {t : Tree NodeId} (ht : t.kind = .fragment)
    (hsupports : c.Supports t.children) {component : ComponentId} {vm : ViewModelId}
    {st : LiveState C H} (hready : st.world.Ready c component vm t) (halive : st.world.Alive vm)
    {table : TableId} {el : NodeId} (hfree : (st.world.table table).isMounted el = false)
    (hel : el.index < st.world.nodes.size) (owner : Option ViewModelId) :
    ∃ st' us, client.run (fuel + 1) (component.mount table el owner) st = some (.ok (), st') ∧
      st'.world.nodes.get el = { st.world.nodes.get el with
        children := (st.world.nodes.get el).children ++ us.map Tree.label } ∧
      st'.world.nodes.Shows id (Tree.asNodesAll (some el) us) ∧ (Tree.labelsAll us).Nodup ∧
      Tree.markupAll us =
        Tree.markupAll (c.renderAll (st.fieldValue vm) (st.fieldValue vm) t.children) ∧
      st.world.nodes.Agrees id [el] st'.world.nodes := by
  obtain ⟨hcopy, hplants⟩ := st.world.nodes.plants_plant t hsupports.solid
  generalize hplant : st.world.nodes.plant t = x at hcopy hplants
  obtain ⟨copy, s⟩ := x
  let st₁ : LiveState C H := st.withWorld
    { st.world with nodes := s, holdings := [.node copy] :: st.world.holdings }
  obtain ⟨u, hu⟩ : ∃ u, u = t.number st.world.nodes.size := ⟨_, rfl⟩
  have hplain : u.plain = t.plain := hu ▸ Tree.plain_number _ t
  have hkind : u.kind = .fragment := hu ▸ (Tree.kind_number _ t).trans ht
  have hlabel : u.label = copy := hu ▸ (Tree.label_number _ t).trans hcopy.symm
  have hnew (m : NodeId) (hm : m ∈ u.labels) : st.world.nodes.size ≤ m.index := by
    rw [hu] at hm
    exact (Tree.mem_labels_number hm).1
  have hshows : st₁.world.nodes.Shows id (u.asNodes none) := hu ▸ hplants.shows
  have hnodup : u.labels.Nodup := hu ▸ Tree.nodup_labels_number _ t
  have hchildren := Tree.mapAll_children_of_plain hplain
  obtain ⟨st₂, P, hlinks, hdraws, hlabels, hroots, hkinds⟩ : (client.meaning.runner
      (fuel + 1)).DrawsTree (fuel + 1) ⟨vm, owner, none⟩ _ none u _ st₁ :=
    draws_compile client fuel (fuel + 1) hc u none st₁ (by rw [hkind]; rfl)
      (hsupports.of_plain hchildren) (fun tag htag ↦ NodeKind.noConfusion (hkind.symm.trans htag))
      hshows hnodup halive.gone
  rw [hlabel] at hroots
  rw [hkind] at hkinds
  obtain ⟨attrs, data, us, hshows₂, hus, hmarkup⟩ := hdraws.fragment hroots hkinds
  have hfresh (m : NodeId) (hm : m ∈ copy :: Tree.labelsAll us) :
      st.world.nodes.size ≤ m.index := by
    rcases hlabels m (hus ▸ hm) with hu | hge
    · exact hnew m hu
    · exact Nat.le_trans hplants.agrees.size hge
  have hnodup₂ : (copy :: Tree.labelsAll us).Nodup := hus ▸ hdraws.fits.nodup
  -- All nodes of the copy are new, so that nothing has changed yet for those of before.
  have hagrees : st.world.nodes.Agrees id [] st₂.world.nodes :=
    ((hplants.agrees.mono (List.nil_subset _)).trans hdraws.agrees).of_append fun m hm ↦ hnew m hm
  obtain ⟨hagrees', hget, hshows₃⟩ := NodeStore.append_fragment_of_shows hshows₂ hnodup₂
    (Nat.lt_of_lt_of_le hel hagrees.size) fun hmem ↦ Nat.not_lt.mpr (hfresh el hmem) hel
  -- The component has compiled its template, and not the copy.
  have hlinks' := hlinks
  rw [hlabel, c.compile_fst_of_plain u t hplain] at hlinks'
  obtain ⟨last, hrun, hlast⟩ := Runner.Yields.mount hready halive.disposed hfree hplant hlinks' (by
    rw [hdraws.installs.viewModel_eq, hdraws.installs.world]
    exact halive.hooks)
  have hold : st₂.world.nodes.get el = st.world.nodes.get el := hagrees.get el hel List.not_mem_nil
  rw [hold] at hget
  refine ⟨last, us, hrun, hlast ▸ hget, hlast ▸ hshows₃, (List.nodup_cons.mp hnodup₂).2, ?_, ?_⟩
  · refine hmarkup.trans ((List.append_nil _).trans
      ((c.markup_render_of_plain _ _ hplain).trans ?_))
    obtain ⟨n, kind, attrs, data, children⟩ := t
    obtain rfl : kind = .fragment := ht
    rfl
  · rw [hlast]
    exact ((hagrees.mono (List.nil_subset _)).trans hagrees').of_append (X := [el]) hfresh

/-- Whether the attributes of trees that ask for one of the two directives of this library ask for
something that can be had: no element for its own text, and attributes by a name. -/
def Answerable {α : Type} (c : Compiler C) (ts : List (Tree α)) : Prop :=
  ∀ attrs ∈ Tree.attributeListsAll ts, ∀ x ∈ attrs,
    x.1 ≠ c.config.mark ++ textDirective ∧
      (x.1 = c.config.mark ++ attributeDirective → ∃ left right,
        Descriptor.splitColon? x.2.toList = some (left, right) ∧ trim left ≠ [])

/-- What is read from a source can be rendered. -/
theorem Answerable.supports {ts : List (Tree Unit)} (h : c.Answerable ts) {source : String}
    (hts : parseMarkup source = .ok ts) : c.Supports ts := by
  have hwell : ∀ t ∈ ts, t.WellFormed := by
    intro t ht
    rw [parseMarkup] at hts
    split at hts
    · contradiction
    · obtain rfl := Except.ok.inj hts
      exact Reading.wellFormed_forest source t (List.mem_filter.mp ht).1
  refine ⟨?_, ?_, fun attrs hattrs x hx ↦ ?_⟩
  · exact Tree.properAll_iff.mpr fun t ht ↦ (hwell t ht).proper
  · exact Tree.solidAll_iff.mpr fun t ht ↦ (hwell t ht).solid
  · obtain ⟨htext, hattr⟩ := h attrs hattrs x hx
    unfold Renderable
    split
    · rename_i name hname
      have hx := eq_of_directiveName? hname
      refine ⟨fun hc ↦ htext (hc ▸ hx), fun hc ↦ hattr (hc ▸ hx)⟩
    · rw [Tree.attributeListsAll_eq, List.mem_flatMap] at hattrs
      obtain ⟨t, ht, hattrs⟩ := hattrs
      exact (hwell t ht).named attrs hattrs x hx

/-- **Mounting shows what the renderer makes of the source.** Take a source that can be read, with
the directives of this library, any mark, and any object as data, where no element asks for its own
text and every attribute that is asked for has a name. A component that is made from the source and
the data is mounted on any node that has nothing mounted on it. This puts nodes at the end of that
node whose markup is that of the directly rendered source, and changes no other node. -/
theorem mount_renders {compiler : CompilerId} {st : LiveState C H}
    (hst : st.graph.Drained) (hc : (st.world.compiler compiler).compiler = c)
    (hbuiltin : c.registry = .builtin) {source : String} {ts : List (Tree Unit)}
    (hts : parseMarkup source = .ok ts) (hanswerable : c.Answerable ts)
    {members : List (String × Value)} (hmembers : (members.map Prod.fst).Nodup)
    {table : TableId} {el : NodeId} (hfree : (st.world.table table).isMounted el = false)
    (hel : el.index < st.world.nodes.size) (name : String) (owner : Option ViewModelId) :
    let field (key : String) := (Value.member? key members).getD .null
    ∃ vm component st₁ st' roots,
      client.run (fuel + 1) (ViewModelId.ofData (.object members) >>= fun vm ↦
          ComponentId.ofSource name vm compiler source >>= fun made ↦ pure (vm, made)) st =
        some ((vm, .ok component), st₁) ∧
      client.run (fuel + 1) (component.mount table el owner) st₁ = some (.ok (), st') ∧
      st'.world.nodes.get el = { st.world.nodes.get el with
        children := (st.world.nodes.get el).children ++ roots } ∧
      Tree.markupAll (roots.map st'.world.nodes.tree) =
        Tree.markupAll (c.renderAll field field ts) ∧
      st.world.nodes.Agrees id [el] st'.world.nodes := by
  intro field
  obtain ⟨vm, st₀, hvm, halive, hfield, hworld⟩ := Runner.Yields.ofData hmembers st hst
  obtain ⟨component, us, w, hcomponent, ⟨f, hready⟩, hus, hw, hagrees⟩ :=
    Runner.Yields.ofSource hts name vm compiler st₀
  have hnodes : st₀.world.nodes = st.world.nodes := by rw [hworld]
  have hcompiler : (st₀.world.compiler compiler).compiler = c := by rw [hworld, ← hc]; rfl
  rw [hcompiler] at hready
  rw [hnodes] at hagrees
  let st₁ := st₀.withWorld w
  -- Making the component touches neither the view-model nor what is mounted.
  have halive₁ : st₁.world.Alive vm := by
    have hw : st₁.world = _ := hw
    rw [hw]
    exact ⟨halive.gone, halive.disposed, halive.hooks⟩
  have hfield₁ : st₁.fieldValue vm = field := by
    refine Eq.trans ?_ hfield
    have hw : st₁.world = _ := hw
    unfold State.fieldValue
    rw [hw]
    rfl
  have hfree₁ : (st₁.world.table table).isMounted el = false := by
    have hw : st₁.world = _ := hw
    rw [hw, hworld]
    exact hfree
  have hsupports : c.Supports us :=
    supports_mapAll.mp (hus ▸ supports_mapAll.mpr (hanswerable.supports hts))
  obtain ⟨st', vs, hrun, hget, hshows, hnodup, hmarkup, hagrees'⟩ :=
    mount_of_ready client fuel hbuiltin (t := Tree.fragment f us) rfl hsupports hready halive₁
      hfree₁ (Nat.lt_of_lt_of_le hel hagrees.size) owner
  have hold : st₁.world.nodes.get el = st.world.nodes.get el := hagrees.get el hel List.not_mem_nil
  refine ⟨vm, component, st₁, st', vs.map Tree.label, ?_, hrun, hold ▸ hget, ?_, ?_⟩
  · exact (hvm _ _).bind ((hcomponent _ _).bind (Runner.Yields.done _ _))
  · rw [NodeStore.map_tree_of_shows hshows hnodup, hmarkup, hfield₁]
    change Tree.markupAll (c.renderAll field field us) = _
    rw [← Tree.markupAll_mapAll (fun _ ↦ ()), ← renderAll_mapAll, hus, renderAll_mapAll,
      Tree.markupAll_mapAll]
  · exact (hagrees.mono (List.nil_subset _)).trans hagrees'

end Compiler

/-! ### A card -/

/-- A source with a directive, an interpolated attribute, and an interpolated text. -/
def cardSource : String := "<p v-attr='title: x' class='{{x}}'>Hi {{x}}</p>"

/-- What the source is read as. -/
def cardTrees : List (Tree Unit) := (parseMarkup cardSource).toOption.getD []

theorem parseMarkup_cardSource : parseMarkup cardSource = .ok cardTrees := by
  have hok : (parseMarkup cardSource).isOk = true := by decide +kernel
  unfold cardTrees
  cases hread : parseMarkup cardSource with
  | ok ts => rfl
  | error e =>
    rw [hread] at hok
    contradiction

theorem attributeListsAll_cardTrees :
    Tree.attributeListsAll cardTrees = [[("v-attr", "title: x"), ("class", "{{x}}")]] := by
  decide +kernel

theorem answerable_cardTrees : (greetingCompiler : Compiler Empty).Answerable cardTrees := by
  unfold Compiler.Answerable
  rw [attributeListsAll_cardTrees]
  intro attrs hattrs x hx
  obtain rfl := List.mem_singleton.mp hattrs
  rcases List.mem_cons.mp hx with rfl | hx
  · exact ⟨by decide, fun _ ↦ ⟨_, _, rfl, by decide⟩⟩
  · obtain rfl := List.mem_singleton.mp hx
    exact ⟨by decide, fun h ↦ absurd h (by decide)⟩

/-- A compiler, a mount table, and a node to mount on. -/
def cardState : LiveState Empty Unit where
  graph := .empty
  world := {
    nodes := (NodeStore.empty.create { kind := .element "main" }).2
    compilers := #[⟨greetingCompiler, []⟩]
    tables := #[.empty]
    host := () }

/-- The card is mounted as it is rendered. -/
theorem card_mount_renders :
    let field (key : String) := (Value.member? key [("x", .string "you")]).getD .null
    ∃ vm component st₁ st' roots,
      Client.none.run 1 (ViewModelId.ofData (.object [("x", .string "you")]) >>= fun vm ↦
          ComponentId.ofSource "card" vm ⟨0⟩ cardSource >>= fun made ↦ pure (vm, made)) cardState =
        some ((vm, .ok component), st₁) ∧
      Client.none.run 1 (component.mount ⟨0⟩ ⟨0⟩ none) st₁ = some (.ok (), st') ∧
      st'.world.nodes.get ⟨0⟩ = { cardState.world.nodes.get ⟨0⟩ with
        children := (cardState.world.nodes.get ⟨0⟩).children ++ roots } ∧
      Tree.markupAll (roots.map st'.world.nodes.tree) =
        Tree.markupAll (greetingCompiler.renderAll field field cardTrees) ∧
      cardState.world.nodes.Agrees id [⟨0⟩] st'.world.nodes := by
  have hdrained : cardState.graph.Drained := fun _ ↦ rfl
  have hcompiler : (cardState.world.compiler ⟨0⟩).compiler = greetingCompiler := rfl
  have hmembers : ([("x", Value.string "you")].map Prod.fst).Nodup := List.nodup_singleton "x"
  have hfree : (cardState.world.table ⟨0⟩).isMounted ⟨0⟩ = false := rfl
  exact Compiler.mount_renders Client.none 0 hdrained hcompiler rfl parseMarkup_cardSource
    answerable_cardTrees hmembers hfree Nat.one_pos "card" none

end LiveMarkup
