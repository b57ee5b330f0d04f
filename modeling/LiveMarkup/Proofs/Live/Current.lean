import Mathlib
import LiveMarkup.Proofs.Live.Execution
import LiveMarkup.Proofs.Live.Keeping
import LiveMarkup.Proofs.Live.Outcome

/-!
# Live trees that stay current

A template that asks for no directive, but interpolates texts and attributes, is executed for a
view-model that has all fields it mentions. From then on, after any writes to the view-model, the
live tree shows what the template renders to for the values of the fields at that moment
(`Compiler.execute_stays_current`); interpolated text areas stay at the values of the execution.

A picture is drawn in the place of the live tree (`Compiler.draws_root`). A picture that is drawn is
at rest (`State.DrawsOver.rests`), and stays so (`State.Rests.setAll`).
-/

namespace LiveMarkup

variable {C H : Type}

/-- Whether no effect runs or waits to run. -/
structure Graph.Idle {V R : Type} (g : Graph V R) : Prop where
  queue : g.queue = []
  queued : ∀ e, (g.effect e).queued = false
  current : g.current = none
  flushing : g.flushing = false

namespace State

/-- Whether the trees below given nodes show what a template renders to for the current values of
the fields, and for those of `frozen` in interpolated text areas. -/
def Displays {α : Type} (st : LiveState C H) (c : Compiler C) (vm : ViewModelId)
    (frozen : String → Value) (template : Tree α) (roots : List NodeId) : Prop :=
  Tree.markupAll (roots.map st.world.nodes.tree) =
    (c.render (st.fieldValue vm) frozen template).markup

/-! ## Pictures at rest -/

/-- Whether a picture shows what it should and goes on to do so, and no effect waits to run: all
fields that it mentions are there, and its effects have seen them as they are. -/
structure Rests (vm : ViewModelId) (q : Option NodeId) (P : Picture) (st : LiveState C H) :
    Prop where
  keeps : ∃ seen, st.Keeps [vm] vm q none P seen [] ∧ ∀ h ∈ P.holes, ∀ name ∈ h.2.mentioned,
    (seen h.1 name).isSome ∧ seen h.1 name = st.snapshot vm name
  queue : st.graph.queue = []
  flushing : st.graph.flushing = false

variable {vm : ViewModelId} {q : Option NodeId} {X : List NodeId} {D : Design} {P : Picture}
  {st st' : LiveState C H}

/-- A picture shows what it should if its effects have seen the fields as they are. -/
theorem Keeps.markup {written : List ViewModelId} {row : Option NodeId} {late : List EffectId}
    {seen : EffectId → Snapshot} (h : st.Keeps written vm q row P seen late) (hP : P.Fits D)
    (hseen : ∀ x ∈ P.holes, ∀ name ∈ x.2.mentioned, seen x.1 name = st.snapshot vm name) :
    Tree.markupAll (P.roots.map st.world.nodes.tree) =
      Tree.markupAll (D.target (st.fieldValue vm)) := by
  obtain ⟨v, hshows, hv⟩ := h.shows
  have hcurrent : P.Current v (st.fieldValue vm) := by
    intro x hx
    rw [hv x hx, ← value_snapshot]
    exact Upkeep.value_congr fun name hname ↦
      congrArg (fun value : Option Value ↦ value.getD .null) (hseen x hx name hname)
  rw [← hP.sound.roots v,
    NodeStore.map_tree_of_shows hshows (hP.sound.labels v ▸ hP.nodup)]
  exact (hP.renders v _ hcurrent).1

namespace Rests

/-- A picture at rest shows what it should. -/
theorem markup (h : st.Rests vm q P) (hP : P.Fits D) :
    Tree.markupAll (P.roots.map st.world.nodes.tree) =
      Tree.markupAll (D.target (st.fieldValue vm)) := by
  obtain ⟨seen, hkeeps, hseen⟩ := h.keeps
  exact hkeeps.markup hP fun x hx name hname ↦ (hseen x hx name hname).2

/-- Writing a field brings a picture to rest again. -/
theorem set (h : st.Rests vm q P) (client : Client C H) (hP : P.Sound) (hretouch : P.Retouchable)
    (hids : (P.holes.map Prod.fst).Nodup) (name : String) (value : Value) :
    ∃ st' bound, (∀ fuel limit, bound ≤ limit →
        (client.meaning.runner (fuel + 1)).Yields limit (vm.set name value) st () st') ∧
      st'.Rests vm q P := by
  obtain ⟨seen, hkeeps, hseen⟩ := h.keeps
  obtain ⟨st', bound, hset, hkeeps', hworks, hqueue⟩ := Keeps.set (ι := Unit) client
    (fun _ ↦ ⟨hP, hretouch, hids⟩) (fun _ ↦ hkeeps) h.queue h.flushing (List.mem_singleton_self vm)
    name value
  have hflushing := (flushing_written st vm name value).trans h.flushing
  refine ⟨st', bound, hset, ⟨_, hkeeps' (), fun x hx other hother ↦ ?_⟩, hqueue,
    hworks.flushing.trans hflushing⟩
  obtain ⟨hsome, hsame⟩ := hseen x hx other hother
  rw [hworks.snapshot]
  by_cases hmem : x.1 ∈ (st.written vm name value).graph.queue
  · rw [Snapshot.refresh_of_mem hmem]
    exact ⟨isSome_snapshot_written (hsame ▸ hsome) vm name value, rfl⟩
  · -- An effect that was not queued mentions other fields only.
    obtain ⟨s, hs, hlt, hread⟩ := hkeeps.reads x hx other hother hsome
    rw [Snapshot.refresh_of_not_mem hmem]
    refine ⟨hsome, hsame.trans (snapshot_written_of_ne hs hlt ?_ value).symm⟩
    rintro rfl
    have hdeclare := hkeeps.declare vm name
    refine hmem (hdeclare.flagged.mem_queue_write value (hdeclare.hole x hx).2.1 ?_)
    rwa [signal_declare hlt]

/-- Writing any fields, one after the other, brings a picture to rest again. -/
theorem setAll (h : st.Rests vm q P) (client : Client C H) (hP : P.Sound)
    (hretouch : P.Retouchable) (hids : (P.holes.map Prod.fst).Nodup)
    (sets : List (String × Value)) :
    ∃ st' bound, (∀ fuel limit, bound ≤ limit →
        (client.meaning.runner (fuel + 1)).Yields limit (vm.setAll sets) st () st') ∧
      st'.Rests vm q P := by
  induction sets generalizing st with
  | nil => exact ⟨st, 0, fun _ _ _ ↦ Runner.Yields.done () st, h⟩
  | cons x sets ih =>
    obtain ⟨st₁, bound, hset, hst₁⟩ := h.set client hP hretouch hids x.1 x.2
    obtain ⟨st₂, bound', hsets, hst₂⟩ := ih hst₁
    refine ⟨st₂, max bound bound', fun fuel limit hlimit ↦ ?_, hst₂⟩
    obtain ⟨hbound, hbound'⟩ := Nat.max_le.mp hlimit
    exact (hset fuel limit hbound).bind (hsets fuel limit hbound')

end Rests

/-! ## Pictures that were drawn -/

namespace Draws

/-- Drawing a picture does not change what the fields are. -/
theorem snapshot (h : st.Draws vm q X D P st') (w : ViewModelId) :
    st'.snapshot w = st.snapshot w :=
  snapshot_congr (h.installs.viewModel_eq w) h.installs.signals h.installs.value

/-- Whoever is neither old nor a hole does not exist. -/
theorem lt_of_not_mem (h : st.Draws vm q X D P st') {e : EffectId}
    (hnot : e ∉ P.holes.map Prod.fst) (hlt : e.index < st'.graph.effects.size) :
    e.index < st.graph.effects.size := by
  by_contra hge
  exact hnot (h.installs.new e (Nat.not_lt.mp hge) hlt)

/-- No effect runs or waits to run once a picture is drawn, if none did before. -/
theorem idle (h : st.Draws vm q X D P st') (hidle : st.graph.Idle) : st'.graph.Idle where
  queue := h.installs.queue.trans hidle.queue
  queued e := by
    by_cases hmem : e ∈ P.holes.map Prod.fst
    · obtain ⟨x, hx, rfl⟩ := List.mem_map.mp hmem
      rw [h.installs.effect x hx]
    · by_cases hlt : e.index < st'.graph.effects.size
      · rw [h.installs.old e (h.lt_of_not_mem hmem hlt)]
        exact hidle.queued e
      · rw [Graph.effect_of_not_lt hlt]
        rfl
  current := h.installs.current.trans hidle.current
  flushing := h.installs.flushing.trans hidle.flushing

/-- Whoever is no hole and reads a field read it before, since nothing else runs. -/
theorem reads_of_not_mem (h : st.Draws vm q X D P st') (hidle : st.graph.Idle) {e : EffectId}
    (hnot : e ∉ P.holes.map Prod.fst) {w : ViewModelId} (hreads : st'.Reads w e) :
    st.Reads w e := by
  obtain ⟨name, s, hs, hmem⟩ := hreads
  rw [h.installs.viewModel_eq] at hs
  rcases h.installs.readers s e hmem with hmem | ⟨x, hx, rfl, -⟩ | hcurrent
  · exact ⟨name, s, hs, hmem⟩
  · exact absurd (List.mem_map_of_mem hx) hnot
  · exact absurd (hcurrent.symm.trans hidle.current) (Option.some_ne_none e)

end Draws

/-! ## Pictures in the place of trees -/

/-- Whether a picture is drawn in the place of a tree. What changes is the tree, and the row that
lists its root; whatever that lists beside the root, it goes on to list. -/
structure DrawsOver (vm : ViewModelId) (q : Option NodeId) (t : Tree NodeId) (X : List NodeId)
    (D : Design) (P : Picture) (st st' : LiveState C H) : Prop where
  draws : st.Draws vm q X D P st'
  labels : ∀ m ∈ P.labels, m ∈ t.labels ∨ st.world.nodes.size ≤ m.index
  surrounds : st.world.nodes.Surrounds t.labels st'.world.nodes
  changes : ∀ m ∈ X, m ∈ t.labels ∨ t.label ∈ (st.world.nodes.get m).children
  rows : ∀ m, m ∉ t.labels → ∀ n ∈ (st.world.nodes.get m).children, n ∉ t.labels →
    n ∈ (st'.world.nodes.get m).children

/-- A picture is drawn in the place of a tree if no other nodes change. -/
theorem Draws.over {t : Tree NodeId} (h : st.Draws vm q X D P st') (hX : X ⊆ t.labels)
    (hlabels : ∀ m ∈ P.labels, m ∈ t.labels ∨ st.world.nodes.size ≤ m.index) :
    st.DrawsOver vm q t X D P st' where
  draws := h
  labels := hlabels
  surrounds := ((h.agrees.mono hX).of_id _).surrounds
  changes _ hm := .inl (hX hm)
  rows m hm n hn _ := by
    have hsame : st'.world.nodes.get m = st.world.nodes.get m :=
      h.agrees.get m (NodeStore.lt_of_mem_children hn) fun hmX ↦ hm (hX hmX)
    rwa [hsame]

/-- A picture is drawn in the place of a text that gives its place in a row to others. -/
theorem Draws.over_text {n p : NodeId} {attrs : Attributes} {data : String}
    {pre post : List NodeId} (h : st.Draws vm q [p, n] D P st')
    (hlabels : ∀ m ∈ P.labels, m ∈ [n] ∨ st.world.nodes.size ≤ m.index)
    (hchildren : (st.world.nodes.get p).children = pre ++ n :: post)
    (hrow : st'.world.nodes.get p =
      { st.world.nodes.get p with children := pre ++ P.roots ++ post }) :
    st.DrawsOver vm q (.node n .text attrs data []) [p, n] D P st' := by
  have hlisted : n ∈ (st.world.nodes.get p).children :=
    hchildren ▸ List.mem_append_right pre List.mem_cons_self
  -- The node above keeps all but its row, which is the one where the text stood.
  have hcases (m : NodeId) (hm : m.index < st.world.nodes.size) (hmn : m ∉ [n]) :
      st'.world.nodes.get m = st.world.nodes.get m ∨ m = p := by
    by_cases hmp : m = p
    · exact .inr hmp
    · refine .inl (h.agrees.get m hm fun hmem ↦ hmn ?_)
      exact (List.mem_cons.mp hmem).resolve_left hmp
  refine ⟨h, hlabels, ⟨h.agrees.size, fun m hm hmn ↦ ?_, fun m hm hmn ↦ ?_, fun m hm hmn ↦ ?_⟩,
    fun m hm ↦ ?_, fun m hm r hr hrn ↦ ?_⟩
  · rcases hcases m hm hmn with hsame | rfl
    · rw [hsame]
    · rw [hrow]
  · rcases hcases m hm hmn with hsame | rfl
    · rw [hsame]
    · rw [hrow]
  · rcases hcases m hm hmn with hsame | rfl
    · exact .inl (congrArg Node.children hsame)
    · exact .inr ⟨n, hlisted, List.mem_singleton_self n⟩
  · rcases List.mem_cons.mp hm with rfl | hm
    · exact .inr hlisted
    · exact .inl hm
  · rcases hcases m (NodeStore.lt_of_mem_children hr) hm with hsame | rfl
    · rwa [hsame]
    · rw [hrow, List.append_assoc]
      rw [hchildren] at hr
      rcases List.mem_append.mp hr with hr | hr
      · exact List.mem_append_left _ hr
      · refine List.mem_append_right _ (List.mem_append_right _ ?_)
        exact (List.mem_cons.mp hr).resolve_left fun he ↦ hrn (List.mem_singleton.mpr he)

namespace DrawsOver

variable {t : Tree NodeId}

/-- A picture that is drawn shows what its effects have seen, and goes on to do so, if whoever else
reads a field that may be written works elsewhere. -/
theorem keeps (h : st.DrawsOver vm q t X D P st') {written : List ViewModelId}
    (hgone : (st.world.viewModel vm).gone = false) (hidle : st.graph.Idle)
    (hreaders : ∀ e, st.graph.isActive e = true → (∃ w ∈ written, st.Reads w e) → ∃ u : Upkeep,
      (st.graph.effect e).body = some u.routine ∧ u.Spares t.labels st.world.nodes) :
    st'.Keeps written vm q none P (fun _ ↦ st.snapshot vm) [] := by
  have hdraws := h.draws
  have hinstalls := hdraws.installs
  obtain ⟨v, hv⟩ := Picture.exists_current hinstalls.nodup (st.fieldValue vm)
  refine ⟨?_, fun e he ↦ ?_, fun x hx ↦ ?_, fun x hx name hname hsome ↦ ?_,
    fun e he hlate hnot ↦ ?_, fun _ hp ↦ absurd hp (Option.not_mem_none _), v, hdraws.shows v hv,
    fun x hx ↦ ?_⟩
  · rw [hinstalls.viewModel_eq]
    exact hgone
  · exact absurd (he.symm.trans ((hdraws.idle hidle).queued e)) Bool.noConfusion
  · rw [Graph.isActive, hinstalls.effect x hx]
    exact ⟨hinstalls.vm_eq x hx, rfl, rfl⟩
  · obtain ⟨s, hs, hlt⟩ := isSome_snapshot.mp hsome
    rw [hinstalls.viewModel_eq, hinstalls.signals]
    have hmem : s ∈ st.signalsOf vm x.2.mentioned := List.mem_filterMap.mpr ⟨name, hname, hs⟩
    exact ⟨s, hs, hlt, hinstalls.subscribed x hx s hmem hlt⟩
  · -- An old effect that reads a field read it before.
    have hlt := hdraws.lt_of_not_mem hnot (Graph.lt_of_isActive he)
    obtain ⟨w, hw, hreads⟩ := hlate.resolve_right List.not_mem_nil
    rw [Graph.isActive, hinstalls.old e hlt] at he
    obtain ⟨u, hbody, hu⟩ := hreaders e he ⟨w, hw, hdraws.reads_of_not_mem hidle hnot hreads⟩
    rw [hinstalls.old e hlt]
    exact ⟨u, hbody, hu.of_surrounds h.surrounds h.labels⟩
  · rw [value_snapshot]
    exact hv x hx

/-- A picture is at rest when it is drawn, if all fields are there that it depends on, and whoever
else reads a field works elsewhere. -/
theorem rests (h : st.DrawsOver vm q t X D P st') (hsimple : D.simple)
    (hgone : (st.world.viewModel vm).gone = false) (hidle : st.graph.Idle)
    (hheads : ∀ name ∈ D.heads, ∃ s, (st.world.viewModel vm).field? name = some s ∧
      s.index < st.graph.signals.size)
    (hreaders : ∀ e, st.graph.isActive e = true → st.Reads vm e → ∃ u : Upkeep,
      (st.graph.effect e).body = some u.routine ∧ u.Spares t.labels st.world.nodes) :
    st'.Rests vm q P := by
  have hdraws := h.draws
  have hreaders' (e : EffectId) (he : st.graph.isActive e = true)
      (hreads : ∃ w ∈ [vm], st.Reads w e) : ∃ u : Upkeep,
      (st.graph.effect e).body = some u.routine ∧ u.Spares t.labels st.world.nodes := by
    obtain ⟨w, hw, hreads⟩ := hreads
    obtain rfl := List.mem_singleton.mp hw
    exact hreaders e he hreads
  refine ⟨⟨_, h.keeps hgone hidle hreaders', fun x hx name hname ↦ ⟨?_, ?_⟩⟩,
    (hdraws.idle hidle).queue, (hdraws.idle hidle).flushing⟩
  · exact isSome_snapshot.mpr (hheads name (hdraws.fits.mentioned hsimple x hx hname))
  · rw [hdraws.snapshot]

end DrawsOver

end State

namespace Compiler

/-! ## Templates without directives -/

/-- Whether a template interpolates texts and attributes, and asks for no directive that there
is. -/
structure Interpolates {α : Type} (c : Compiler C) (t : Tree α) : Prop where
  proper : t.Proper
  solid : Tree.SolidAll t.children
  undirected : ∀ attrs ∈ t.attributeLists, c.Undirected attrs

namespace Interpolates

variable {α : Type} {c : Compiler C} {t u : Tree α}

theorem of_plain (h : c.Interpolates u) (hplain : t.plain = u.plain) : c.Interpolates t where
  proper := h.proper.of_plain hplain
  solid := by
    rw [← Tree.solidAll_mapAll fun _ ↦ (), Tree.mapAll_children_of_plain hplain]
    exact (Tree.solidAll_mapAll _ _).mpr h.solid
  undirected := by
    have hlists := congrArg Tree.attributeLists hplain
    rw [Tree.plain, Tree.plain, Tree.attributeLists_map, Tree.attributeLists_map] at hlists
    exact hlists ▸ h.undirected

theorem supports (h : c.Interpolates t) (hc : c.registry = .builtin) : c.Supports t.children := by
  obtain ⟨hproper, hsolid, hundirected⟩ := h
  obtain ⟨l, kind, attrs, data, children⟩ := t
  rw [Tree.Proper] at hproper
  refine ⟨hproper.2, hsolid, fun as has ↦ (hundirected as ?_).renderable hc⟩
  cases kind with
  | element tag => exact List.mem_cons_of_mem attrs has
  | text => exact has
  | comment => exact has
  | fragment => exact has

theorem root (h : c.Interpolates t) (hc : c.registry = .builtin) {tag : String}
    (hkind : t.kind = .element tag) : ∀ x ∈ t.attrs, c.Renderable x.1 x.2 := by
  obtain ⟨l, kind, attrs, data, children⟩ := t
  obtain rfl : kind = .element tag := hkind
  exact (h.undirected attrs List.mem_cons_self).renderable hc

end Interpolates

/-- Whether nodes stand where a live tree stood that was executed: a text gives its place to others,
any other root stays. -/
def Succeeds (t : Tree NodeId) (p : NodeId) (pre post roots : List NodeId) (s : NodeStore) : Prop :=
  match t.kind with
  | .text => (s.get p).children = pre ++ roots ++ post
  | .element _ | .comment | .fragment => roots = [t.label]

theorem Succeeds.roots_eq {t : Tree NodeId} {p : NodeId} {pre post roots : List NodeId}
    {s : NodeStore} (h : Succeeds t p pre post roots s) (hkind : t.kind ≠ .text) :
    roots = [t.label] := by
  obtain ⟨n, kind, attrs, data, children⟩ := t
  cases kind with
  | text => exact absurd rfl hkind
  | element tag => exact h
  | comment => exact h
  | fragment => exact h

variable {c : Compiler C} (client : Client C H) (fuel limit : Nat) {scope : Scope}

/-- Execution draws what the template renders to where the live tree stands. A text has to stand
below another node, since it gives its place to others. -/
theorem draws_root (hc : c.registry = .builtin) {t : Tree NodeId} (ht : c.Interpolates t)
    {q : Option NodeId} {p : NodeId} {pre post : List NodeId} {st : LiveState C H}
    (hst : st.world.nodes.Shows id (t.asNodes q)) (hnodup : t.labels.Nodup)
    (hplace : t.kind = .text →
      st.world.nodes.Placed t.label p pre post ∧ p.index < st.world.nodes.size)
    (hgone : (st.world.viewModel scope.vm).gone = false) :
    ∃ st' X P, (client.meaning.runner (fuel + 1)).Links limit
        (Program.linkAny scope t.label (c.compile t).1) st () st' ∧
      st.DrawsOver scope.vm q t X (c.designAll (st.fieldValue scope.vm) [t]) P st' ∧
      Succeeds t p pre post P.roots st'.world.nodes := by
  have hsupports := ht.supports hc
  have hroot (tag : String) (hkind : t.kind = .element tag) := ht.root hc hkind
  have hcontainer (hkind : t.kind.isContainer = true) :
      (client.meaning.runner (fuel + 1)).DrawsTree limit scope
        (Program.linkAny scope t.label (c.compile t).1) q t
        (c.designAll (st.fieldValue scope.vm) [t]) st :=
    draws_compile client fuel limit hc t q st hkind hsupports hroot hst hnodup hgone
  have hproper := ht.proper
  obtain ⟨n, kind, attrs, data, children⟩ := t
  rw [Tree.Proper] at hproper
  cases kind with
  | element tag =>
    obtain ⟨st', P, hlinks, hdraws, hlabels, hroots, -⟩ := hcontainer rfl
    exact ⟨st', _, P, hlinks, hdraws.over (List.Subset.refl _) hlabels, hroots⟩
  | fragment =>
    obtain ⟨st', P, hlinks, hdraws, hlabels, hroots, -⟩ := hcontainer rfl
    exact ⟨st', _, P, hlinks, hdraws.over (List.Subset.refl _) hlabels, hroots⟩
  | comment =>
    obtain rfl := hproper.1 rfl
    rw [← Tree.asNodesAll_singleton] at hst
    have hown : (c.compileNode (.node n .comment attrs data [])).1 = none := rfl
    have hdraws : st.Draws scope.vm q []
        (c.designAll (st.fieldValue scope.vm) [.node n .comment attrs data []])
        (.still [.node n .comment attrs data []]) st :=
      .still (.of_world scope.vm rfl rfl) rfl hnodup (c.sketchAll_singleton _ _)
        (fun _ ↦ ⟨rfl, rfl⟩) hst
    rw [compile_fst_of_leaf, hown]
    exact ⟨st, [], _, Runner.Links.done () st, hdraws.over (List.nil_subset _) fun _ ↦ .inl, rfl⟩
  | text =>
    obtain rfl := hproper.1 rfl
    obtain ⟨hplaced, hp⟩ := hplace rfl
    have hq : q = some p := (congrArg Node.parent (hst _ List.mem_cons_self).2).symm.trans
      hplaced.parent
    subst hq
    rw [← Tree.asNodesAll_singleton] at hst
    obtain ⟨st', P, hlinks, hdraws, hlabels, hrow⟩ := draws_text client fuel limit hc st hst
      hplaced.ne hp hplaced.children hplaced.not_mem hgone
    exact ⟨st', _, P, hlinks, hdraws.over_text hlabels hplaced.children hrow,
      congrArg Node.children hrow⟩

/-- **A live tree stays current.** Take a template that interpolates texts and attributes and asks
for no directive, and a view-model that has all fields it mentions, where no effect runs. Whoever
else reads a field keeps something up to date elsewhere. Executed on a live copy of the template,
its program succeeds. From then on, the trees that stand where the copy stood show what the template
renders to for the current values of the fields, also after any writes to the view-model; text areas
stay at the values that the fields had before the execution. -/
theorem execute_stays_current (hc : c.registry = .builtin) {template live : Tree NodeId}
    (htemplate : c.Interpolates template) (hlive : live.plain = template.plain)
    {q : Option NodeId} {p : NodeId} {pre post : List NodeId} {st : LiveState C H}
    (hst : st.world.nodes.Shows id (live.asNodes q)) (hnodup : live.labels.Nodup)
    (hplace : live.kind = .text →
      st.world.nodes.Placed live.label p pre post ∧ p.index < st.world.nodes.size)
    (hgone : (st.world.viewModel scope.vm).gone = false) (hidle : st.graph.Idle)
    (hheads : ∀ name ∈ c.heads template, ∃ s,
      (st.world.viewModel scope.vm).field? name = some s ∧ s.index < st.graph.signals.size)
    (hreaders : ∀ e, st.graph.isActive e = true → st.Reads scope.vm e → ∃ u : Upkeep,
      (st.graph.effect e).body = some u.routine ∧ u.Spares live.labels st.world.nodes) :
    ∃ st' d roots,
      client.run (fuel + 1) (Live.execute (c.compile template).1 scope (.node live.label)) st =
        some (.ok d, st') ∧
      Succeeds live p pre post roots st'.world.nodes ∧
      st'.Displays c scope.vm (st.fieldValue scope.vm) template roots ∧
      ∀ sets, ∃ st'' bound,
        (∀ fuel, bound < fuel → client.run fuel (scope.vm.setAll sets) st' = some ((), st'')) ∧
        st''.Displays c scope.vm (st.fieldValue scope.vm) template roots := by
  have hinterpolates := htemplate.of_plain hlive
  obtain ⟨st', X, P, hlinks, hover, hroots⟩ :=
    draws_root client fuel (fuel + 1) hc hinterpolates hst hnodup hplace hgone
  have hdraws := hover.draws
  have hsimple : (c.designAll (st.fieldValue scope.vm) [live]).simple := by
    simpa [designAll, Tree.attributeListsAll] using hinterpolates.undirected
  have hheads' : ∀ name ∈ (c.designAll (st.fieldValue scope.vm) [live]).heads, ∃ s,
      (st.world.viewModel scope.vm).field? name = some s ∧ s.index < st.graph.signals.size := by
    intro name hname
    refine hheads name ?_
    rw [← c.heads_map fun _ ↦ (), ← Tree.plain, ← hlive, Tree.plain, heads_map]
    simpa [designAll, headsAll] using hname
  have hrests : st'.Rests scope.vm q P :=
    hover.rests hsimple hgone hidle hheads' hreaders
  have hdisplays {st₁ : LiveState C H} (h : st₁.Rests scope.vm q P) :
      st₁.Displays c scope.vm (st.fieldValue scope.vm) template P.roots := by
    refine (h.markup hdraws.fits).trans ?_
    rw [← c.markup_render_of_plain _ _ hlive]
    exact List.append_nil _
  have hrun : client.run (fuel + 1) (Live.execute (c.compile live).1 scope (.node live.label)) st =
      _ := Runner.Yields.execute hlinks
  -- The copy has the program of its template.
  rw [c.compile_fst_of_plain live template hlive] at hrun
  refine ⟨st', _, P.roots, hrun, hroots, hdisplays hrests, fun sets ↦ ?_⟩
  obtain ⟨st'', bound, hsets, hrests'⟩ := hrests.setAll client hdraws.fits.sound
    (hdraws.fits.retouchable hsimple) hdraws.installs.nodup sets
  refine ⟨st'', bound, fun fuel hfuel ↦ ?_, hdisplays hrests'⟩
  obtain ⟨fuel, rfl⟩ := Nat.exists_eq_succ_of_ne_zero (Nat.ne_zero_of_lt hfuel)
  exact hsets fuel (fuel + 1) (Nat.le_of_lt hfuel)

end Compiler

/-! ### A greeting -/

/-- A compiler with the directives of this library only. -/
def greetingCompiler : Compiler Empty := { registry := .builtin }

/-- An element with an interpolated attribute, an interpolated text and an interpolated text
area. -/
def greetingTemplate : Tree NodeId :=
  .element ⟨0⟩ "p" [("title", "{{x}}")]
    [.text ⟨1⟩ "Hi {{x}}", .element ⟨2⟩ "textarea" [] [.text ⟨3⟩ "{{x}}"]]

/-- A copy of the template, a view-model with the one field, and a text elsewhere whose effect reads
the field too. -/
def greetingState : LiveState Empty Unit where
  graph := {
    signals := #[⟨.null, [⟨0⟩]⟩]
    effects := #[⟨some (.text ⟨0⟩ ⟨4⟩ "x"), true, false⟩]
    queue := []
    current := none
    flushing := false }
  world := {
    nodes := ((NodeStore.empty.plant greetingTemplate).2.create { kind := .text }).2
    viewModels := #[⟨[("x", ⟨0⟩)], ⟨0⟩, ⟨0⟩, false, false⟩]
    ledgers := #[.empty]
    host := () }

theorem directiveName?_title : greetingCompiler.directiveName? "title" = none := by decide

theorem interpolates_greetingTemplate : greetingCompiler.Interpolates greetingTemplate := by
  refine ⟨?_, ?_, fun attrs hattrs ↦ ?_⟩
  · simp [greetingTemplate, Tree.element, Tree.text, Tree.Proper, Tree.ProperAll,
      NodeKind.isContainer]
  · simp [greetingTemplate, Tree.element, Tree.text, Tree.children, Tree.SolidAll, Tree.Solid]
  · have hattrs : attrs ∈ [[("title", "{{x}}")], []] := hattrs
    rcases List.mem_cons.mp hattrs with rfl | hattrs
    · refine ⟨List.nodup_singleton _, by decide, fun x hx name hname ↦ ?_⟩
      obtain rfl := List.mem_singleton.mp hx
      exact absurd (hname.symm.trans directiveName?_title) (Option.some_ne_none name)
    · obtain rfl := List.mem_singleton.mp hattrs
      exact ⟨List.nodup_nil, by decide, fun x hx ↦ absurd hx List.not_mem_nil⟩

theorem heads_greetingTemplate : greetingCompiler.heads greetingTemplate = ["x", "x"] := by
  have htitle : Interpolation.mentioned ['{', '{', 'x', '}', '}'] = ["x"] := by cbv
  have htext : Interpolation.mentioned ['H', 'i', ' ', '{', '{', 'x', '}', '}'] = ["x"] := by cbv
  have hresolved : Compiler.isResolved (.node (⟨2⟩ : NodeId) (.element "textarea") [] ""
    [.node ⟨3⟩ .text [] "{{x}}" []]) = true := by cbv
  have hown : Compiler.isResolved (.node (⟨0⟩ : NodeId) (.element "p") [("title", "{{x}}")] ""
    [.node ⟨1⟩ .text [] "Hi {{x}}" [], .node ⟨2⟩ (.element "textarea") [] ""
      [.node ⟨3⟩ .text [] "{{x}}" []]]) = false := by cbv
  have hscript : equalIgnoringCase "p" "script" = false := by decide
  simp [greetingTemplate, Tree.element, Tree.text, Compiler.heads_element, Compiler.headsAll,
    Compiler.heads, Compiler.attributeHeads, directiveName?_title, htitle, htext, hresolved, hown,
    hscript]

/-- The copy shows its template for the field, whatever is written. -/
theorem greeting_stays_current :
    ∃ st' d roots,
      Client.none.run 1 (Live.execute (greetingCompiler.compile greetingTemplate).1
          ⟨⟨0⟩, none, none⟩ (.node ⟨0⟩)) greetingState = some (.ok d, st') ∧
      Compiler.Succeeds greetingTemplate ⟨0⟩ [] [] roots st'.world.nodes ∧
      st'.Displays greetingCompiler ⟨0⟩ (greetingState.fieldValue ⟨0⟩) greetingTemplate roots ∧
      ∀ sets, ∃ st'' bound,
        (∀ fuel, bound < fuel →
          Client.none.run fuel (ViewModelId.setAll ⟨0⟩ sets) st' = some ((), st'')) ∧
        st''.Displays greetingCompiler ⟨0⟩ (greetingState.fieldValue ⟨0⟩) greetingTemplate
          roots := by
  have hsolid := interpolates_greetingTemplate.solid
  have hplants := (NodeStore.plants_plant NodeStore.empty greetingTemplate hsolid).2
  have hshows : greetingState.world.nodes.Shows id (greetingTemplate.asNodes none) :=
    hplants.shows.of_agrees (NodeStore.agrees_create _ _) fun _ _ ↦ List.not_mem_nil
  refine Compiler.execute_stays_current Client.none 0 rfl interpolates_greetingTemplate rfl hshows
    (by decide) (fun h ↦ NodeKind.noConfusion h) rfl ⟨rfl, fun e ↦ ?_, rfl, rfl⟩
    (fun name hname ↦ ?_) fun e he _ ↦ ?_
  · obtain ⟨_ | n⟩ := e <;> rfl
  · rw [heads_greetingTemplate] at hname
    obtain rfl : name = "x" := by simpa using hname
    exact ⟨⟨0⟩, rfl, Nat.one_pos⟩
  · have hlt : e.index < 1 := Graph.lt_of_isActive he
    obtain ⟨_ | n⟩ := e
    · exact ⟨.text ⟨0⟩ ⟨4⟩ "x", rfl, by decide, by decide, .inl rfl⟩
    · exact absurd hlt (Nat.not_lt.mpr (Nat.le_add_left 1 n))

end LiveMarkup
