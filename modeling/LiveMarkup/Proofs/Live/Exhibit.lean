import LiveMarkup.Proofs.Live.Regular

/-!
# One copy among others

`Copy.Stands` says of a copy that it is as its standing says: it is shown as a picture of the design,
each effect has seen what it is said to have seen and subscribes to those fields only, and what the
execution has left to dispose are these effects. A copy on which nothing was executed yet stands
(`Copy.Awaits.stands`).

A copy goes on standing whatever is done: a field is written (`Copy.Stands.set`), the program of the
template is executed on it (`Copy.Stands.executed`) or on another copy (`Copy.Stands.of_drawn`), and
it is disposed (`Copy.Stands.disposed_own`) or another copy is (`Copy.Stands.disposed_other`). What
an execution draws, and that it leaves other nodes alone, is `Copy.Drawn`.
-/

namespace LiveMarkup

variable {C H ι : Type}

/-! ## Pictures beside others -/

/-- The effect of a hole of a picture that was drawn works on nodes of the picture. -/
theorem State.Draws.spares {vm : ViewModelId} {q : Option NodeId} {X Y : List NodeId} {D : Design}
    {P : Picture} {st st' : LiveState C H} (h : st.Draws vm q X D P st') {x : EffectId × Upkeep}
    (hx : x ∈ P.holes) (hY : List.Disjoint Y P.labels) : x.2.Spares Y st'.world.nodes := by
  obtain ⟨v, hv⟩ := Picture.exists_current h.installs.nodup (st.fieldValue vm)
  obtain ⟨y, hy, hnode, hshape⟩ := h.fits.sound.place x hx v q
  obtain ⟨hlt, hget⟩ := h.shows v hv y hy
  have hget : st'.world.nodes.get y.1 = y.2 := hget
  refine ⟨hnode ▸ hlt, fun hmem ↦ hY hmem (h.fits.sound.node_mem hx), .inl ?_⟩
  rw [← hnode, hget]
  exact hshape

namespace State.Keeps

variable {written : List ViewModelId} {vm w : ViewModelId} {q row : Option NodeId} {P Q : Picture}
  {seen : EffectId → Snapshot} {st st' : LiveState C H}

section Over

variable {q' : Option NodeId} {t : Tree NodeId} {X : List NodeId} {D : Design}

/-- A picture has no node in common with one that is drawn in the place of a tree elsewhere. -/
theorem disjoint_over (h : st.Keeps written vm q row P seen []) (hP : P.Sound)
    (hover : st.DrawsOver w q' t X D Q st') (hdisjoint : List.Disjoint P.labels t.labels) :
    List.Disjoint P.labels Q.labels := by
  intro n hn hmem
  rcases hover.labels n hmem with hmem | hge
  · exact hdisjoint hn hmem
  · exact Nat.not_lt.mpr hge (h.lt_of_mem_labels hP hn)

/-- A picture is kept while another is drawn in the place of a tree elsewhere. -/
theorem over_other (h : st.Keeps written vm q row P seen []) (hP : P.Sound)
    (hover : st.DrawsOver w q' t X D Q st') (hdisjoint : List.Disjoint P.labels t.labels)
    (ht : st.world.nodes.Shows id (t.asNodes q')) (hidle : st.graph.Idle)
    (hspares : ∀ e, st.graph.isActive e = true → (∃ w ∈ written, st.Reads w e) → ∃ u : Upkeep,
      (st.graph.effect e).body = some u.routine ∧ u.Spares t.labels st.world.nodes) :
    st'.Keeps written vm q row P seen [] := by
  have hdraws := hover.draws
  have hinstalls := hdraws.installs
  have hlt (x : EffectId × Upkeep) (hx : x ∈ P.holes) : x.1.index < st.graph.effects.size :=
    Graph.lt_of_isActive (h.hole x hx).2.1
  obtain ⟨v, hshows, hv⟩ := h.shows
  refine ⟨?_, fun e he ↦ ?_, fun x hx ↦ ?_, fun x hx name hname hsome ↦ ?_,
    fun e he hlate hnot ↦ ?_, fun p hp n hn ↦ ?_, v, ?_, hv⟩
  · rw [hinstalls.viewModel_eq]
    exact h.gone
  · exact absurd (he.symm.trans ((hdraws.idle hidle).queued e)) Bool.noConfusion
  · rw [Graph.isActive, hinstalls.old x.1 (hlt x hx)]
    exact h.hole x hx
  · obtain ⟨s, hs, hslt, hmem⟩ := h.reads x hx name hname hsome
    rw [hinstalls.viewModel_eq, hinstalls.signals]
    exact ⟨s, hs, hslt, hinstalls.subscribers s hmem⟩
  · -- An effect is a new one, or it works outside of both the picture and the tree.
    by_cases hmem : e ∈ Q.holes.map Prod.fst
    · obtain ⟨x, hx, rfl⟩ := List.mem_map.mp hmem
      exact ⟨x.2, congrArg Effect.body (hinstalls.effect x hx),
        hdraws.spares hx (h.disjoint_over hP hover hdisjoint)⟩
    · have hlt := hdraws.lt_of_not_mem hmem (Graph.lt_of_isActive he)
      rw [Graph.isActive, hinstalls.old e hlt] at he
      obtain ⟨w', hw', hreads⟩ := hlate.resolve_right List.not_mem_nil
      have hreads := hdraws.reads_of_not_mem hidle hmem hreads
      obtain ⟨u, hbody, hu⟩ := h.others e he (.inl ⟨w', hw', hreads⟩) hnot
      obtain ⟨u', hbody', hu'⟩ := hspares e he ⟨w', hw', hreads⟩
      obtain rfl := Upkeep.routine_injective (Option.some.inj (hbody'.symm.trans hbody))
      rw [hinstalls.old e hlt]
      refine ⟨u', hbody, (hu.append hu').of_surrounds
        (hover.surrounds.mono (List.subset_append_right P.labels t.labels)) fun n hn ↦ .inl ?_⟩
      exact List.mem_append_left t.labels hn
  · -- A node of the tree lists nodes of the tree only.
    have hlisted := h.listed p hp n hn
    have hn := roots_subset hP hn
    refine hover.rows p (fun hmem ↦ hdisjoint hn ?_) n hlisted fun hmem ↦ hdisjoint hn hmem
    rw [← Tree.asNodesAll_singleton] at ht
    rw [← Tree.labelsAll_singleton] at hmem ⊢
    exact ht.mem_labelsAll_of_mem_children hmem hlisted
  · -- No node of the picture changes: one that lists the root would list a node of the picture.
    refine hshows.of_agrees hdraws.agrees fun x hx hmem ↦ ?_
    have hn : x.1 ∈ P.labels := hP.labels v ▸ Tree.mem_labelsAll_of_mem_asNodesAll hx
    rcases hover.changes x.1 hmem with hmem | hlisted
    · exact hdisjoint hn hmem
    · rw [← hP.labels v] at hdisjoint hn
      exact hdisjoint (hshows.mem_labelsAll_of_mem_children hn hlisted) t.label_mem_labels

end Over

/-- Whoever is active while effects are stopped is none of them, and works elsewhere as before. -/
theorem others_disposed (h : st.Keeps written vm q row P seen []) {w : ViewModelId}
    {es : List EffectId} {ids : List BindingId} {e : EffectId}
    (he : (st.disposed w es ids).graph.isActive e = true)
    (hlate : (∃ w' ∈ written, (st.disposed w es ids).Reads w' e) ∨ e ∈ [])
    (hnot : e ∉ es → e ∉ P.holes.map Prod.fst) : ∃ u : Upkeep,
      ((st.disposed w es ids).graph.effect e).body = some u.routine ∧
        u.Spares P.labels st.world.nodes := by
  have hmem : e ∉ es := Graph.not_mem_of_isActive_stopAll he
  have heffect : (st.graph.stopAll es).effect e = st.graph.effect e :=
    Graph.effect_stopAll_of_not_mem hmem
  rw [disposed, Graph.isActive, heffect] at he
  rw [disposed, heffect]
  refine h.others e he (hlate.imp_left ?_) (hnot hmem)
  rintro ⟨w', hw', name, s, hs, hreads⟩
  exact ⟨w', hw', name, s, hs, Graph.signal_stopAll st.graph es s ▸ hreads⟩

/-- A picture is kept while effects of others are stopped. -/
theorem disposed_other (h : st.Keeps written vm q row P seen []) (w : ViewModelId)
    {es : List EffectId} (hnot : ∀ x ∈ P.holes, x.1 ∉ es) (ids : List BindingId) :
    (st.disposed w es ids).Keeps written vm q row P seen [] where
  gone := h.gone
  flagged := h.flagged.stopAll es
  hole x hx := by
    have heffect : (st.graph.stopAll es).effect x.1 = st.graph.effect x.1 :=
      Graph.effect_stopAll_of_not_mem (hnot x hx)
    rw [disposed, Graph.isActive, heffect]
    exact h.hole x hx
  reads x hx name hname hsome := by
    obtain ⟨s, hs, hlt, hmem⟩ := h.reads x hx name hname hsome
    exact ⟨s, hs, (Graph.signals_stopAll st.graph es).symm ▸ hlt,
      (Graph.signal_stopAll st.graph es s).symm ▸ hmem⟩
  others e he hlate hholes := h.others_disposed he hlate fun _ ↦ hholes
  listed := h.listed
  shows := h.shows

/-- A picture whose effects are stopped is left as it is. -/
theorem disposed_own (h : st.Keeps written vm q row P seen []) (hP : P.Sound) (w : ViewModelId)
    (ids : List BindingId) {v : EffectId → String}
    (hshows : st.world.nodes.Shows id (Tree.asNodesAll q (P.forest v))) :
    (st.disposed w (P.holes.map Prod.fst) ids).Keeps written vm q none (.still (P.forest v)) seen
      [] where
  gone := h.gone
  flagged := h.flagged.stopAll _
  hole _ hx := absurd hx List.not_mem_nil
  reads _ hx := absurd hx List.not_mem_nil
  others e he hlate _ := by
    have hlabels : (Picture.still (P.forest v)).labels = P.labels := hP.labels v
    exact hlabels.symm ▸ h.others_disposed he hlate id
  listed _ hp := absurd hp (Option.not_mem_none _)
  shows := ⟨v, hshows, fun _ hx ↦ absurd hx List.not_mem_nil⟩

end State.Keeps

/-- A text that stands nowhere is left alone; the texts of its tokens are drawn beside it. -/
theorem Compiler.draws_alone (c : Compiler C) (client : Client C H) (fuel limit : Nat)
    {scope : Scope} (hc : c.registry = .builtin) {t : Tree NodeId} (ht : t.Proper)
    (hkind : t.kind = .text) {st : LiveState C H}
    (hst : st.world.nodes.Shows id (t.asNodes none))
    (hgone : (st.world.viewModel scope.vm).gone = false) :
    ∃ st' P, (client.meaning.runner (fuel + 1)).Links limit
        (Program.linkAny scope t.label (c.compile t).1) st () st' ∧
      st.DrawsOver scope.vm none t []
        (if Interpolation.hasExpression t.data.toList then Interpolation.beside t
          else c.designAll (st.fieldValue scope.vm) [t]) P st' ∧
      P.roots.head? = some t.label := by
  obtain ⟨n, kind, attrs, data, children⟩ := t
  obtain rfl : kind = .text := hkind
  rw [Tree.Proper] at ht
  obtain rfl := ht.1 rfl
  have hown : (c.compileNode (.node n .text attrs data [])).1 = (c.compileText n data).1 := rfl
  rw [compile_fst_of_leaf, hown, compileText_fst, Tree.data]
  cases hdata : Interpolation.hasExpression data.toList with
  | false =>
    have hsketch := c.sketchAll_singleton (st.fieldValue scope.vm) (.node n .text attrs data [])
    rw [sketch, hdata] at hsketch
    have hnodup : (Tree.labelsAll [Tree.node n .text attrs data []]).Nodup := List.nodup_singleton n
    rw [← Tree.asNodesAll_singleton] at hst
    rw [Bool.false_and, if_neg Bool.false_ne_true, if_neg Bool.false_ne_true]
    refine ⟨st, .still [.node n .text attrs data []], Runner.Links.done () st,
      State.Draws.over ?_ (List.nil_subset _) fun _ ↦ .inl, rfl⟩
    refine .still (.of_world scope.vm rfl rfl) rfl hnodup hsketch (fun field ↦ ⟨?_, rfl⟩) hst
    have hrender : (c.designAll (st.fieldValue scope.vm) [.node n .text attrs data []]).target
        field = [.node n .text attrs (String.ofList (Interpolation.textWith field data.toList)) []] :=
      rfl
    rw [hrender, Interpolation.textWith_of_hasExpression hdata, String.ofList_toList]
  | true =>
    obtain ⟨st', P, hlinks, hdraws, hlabels, hroots⟩ :=
      draws_beside client fuel limit hc st hst hgone
    rw [any_isSlot_of_hasExpression hc hdata, Bool.and_self, if_pos rfl, if_pos rfl]
    refine ⟨st', P, hlinks, hdraws.over (List.nil_subset _) fun m hm ↦ ?_, ?_⟩
    · exact (hlabels m hm).imp_left List.mem_singleton.mpr
    · rw [hroots]
      rfl

/-! ## One copy -/

namespace Standing

/-- The node that has to go on listing the copy: a text that is pending will give its place to
others. -/
def row (s : Standing) (c : Copy C) : Option NodeId :=
  match s.stage, c.live.kind with
  | .pending, .text => c.above
  | _, _ => none

theorem of_mem_row {s : Standing} {c : Copy C} {p : NodeId} (h : p ∈ s.row c) :
    c.live.kind = .text ∧ p ∈ c.above := by
  rw [row] at h
  split at h
  · rename_i hkind
    exact ⟨hkind, h⟩
  · exact absurd h (Option.not_mem_none p)

end Standing

namespace Copy

/-- Whether an execution is as far as its copy, and what it has left to dispose are the effects of
the picture. -/
def Progresses (c : Copy C) (P : Picture) (s : Standing) : Progress C → Prop
  | .pending => s.stage = .pending ∧ P = .still [c.live]
  | .live d => s.stage = .live ∧ d.vm = c.scope.vm ∧ d.ids = s.owned ∧
      d.owned.map Prod.snd = effectBindings P.holes
  | .disposed => s.stage = .disposed

/-- Whether a copy is as its standing says, with a picture of it and what its effects have seen. -/
structure Stands (known : List ViewModelId) (c : Copy C) (P : Picture)
    (seen : EffectId → Snapshot) (s : Standing) (held : Progress C) (st : LiveState C H) :
    Prop where
  keeps : st.Keeps known c.scope.vm c.above (s.row c) P seen []
  fits : P.Fits s.design
  simple : s.design.simple
  ids : (P.holes.map Prod.fst).Nodup
  saw : ∀ k x, P.holes[k]? = some x → seen x.1 = s.seen k
  attends : ∀ x ∈ P.holes, ∀ signal, x.1 ∈ (st.graph.signal signal).subscribers →
    ∃ name ∈ x.2.mentioned, (st.world.viewModel c.scope.vm).field? name = some signal ∧
      (seen x.1 name).isSome
  progresses : c.Progresses P s held
  top : c.above = none → P.roots.head? = some c.live.label

namespace Stands

variable {known : List ViewModelId} {c : Copy C} {P : Picture} {seen : EffectId → Snapshot}
  {s : Standing} {held : Progress C} {st st' : LiveState C H}

theorem fillable (h : c.Stands known P seen s held st) : P.Fillable :=
  ⟨h.fits.sound, h.fits.retouchable h.simple, h.ids⟩

/-- The hole of a number, as the sketch has it. -/
theorem getElem?_holes (h : c.Stands known P seen s held st) {k : Nat} {x : EffectId × Upkeep}
    (hx : P.holes[k]? = some x) : s.design.sketch.holes[k]? = some x.2.bare := by
  rw [← h.fits.follows.holes, List.getElem?_map, hx]
  rfl

/-- The trees look as the standing says. -/
theorem mapAll_forest (h : c.Stands known P seen s held st) {v : EffectId → String}
    (hv : ∀ x ∈ P.holes, v x.1 = x.2.value (seen x.1).value) :
    Tree.mapAll (fun _ ↦ ()) (P.forest v) = s.forest := by
  refine h.fits.follows.forest v s.text fun k x hx ↦ ?_
  rw [hv x (List.mem_of_getElem? hx), h.saw k x hx, Standing.text, h.getElem?_holes hx,
    Option.elim_some, Upkeep.value_bare]

/-- The trees that stand below the roots look as the standing says. -/
theorem mapAll_tree (h : c.Stands known P seen s held st) :
    Tree.mapAll (fun _ ↦ ()) (P.roots.map st.world.nodes.tree) = s.forest := by
  obtain ⟨v, hshows, hv⟩ := h.keeps.shows
  rw [← h.fits.sound.roots v,
    NodeStore.map_tree_of_shows hshows (h.fits.sound.labels v ▸ h.fits.nodup)]
  exact h.mapAll_forest hv

/-- The tree below the root of a copy that stands nowhere looks as the standing says. -/
theorem head?_forest (h : c.Stands known P seen s held st) (habove : c.above = none) :
    s.forest.head? = some (st.world.nodes.tree c.live.label).plain := by
  obtain ⟨rest, hroots⟩ := List.head?_eq_some_iff.mp (h.top habove)
  rw [← h.mapAll_tree, hroots, List.map_cons, Tree.mapAll, List.head?_cons, Tree.plain]

/-- The tree below the root of a copy that stands nowhere is made of nodes of the picture. -/
theorem labels_tree_subset (h : c.Stands known P seen s held st) (habove : c.above = none) :
    (st.world.nodes.tree c.live.label).labels ⊆ P.labels := by
  obtain ⟨v, hshows, -⟩ := h.keeps.shows
  have htrees := NodeStore.map_tree_of_shows hshows (h.fits.sound.labels v ▸ h.fits.nodup)
  obtain ⟨rest, hroots⟩ := List.head?_eq_some_iff.mp (h.top habove)
  rw [h.fits.sound.roots v, hroots, List.map_cons] at htrees
  rw [← h.fits.sound.labels v, ← htrees, Tree.labelsAll]
  exact List.subset_append_left _ _

/-- The markup is as the standing says. -/
theorem markup (h : c.Stands known P seen s held st) :
    Tree.markupAll (P.roots.map st.world.nodes.tree) = Tree.markupAll s.forest := by
  rw [← h.mapAll_tree, Tree.markupAll_mapAll]

/-- Effects that have seen some fields are current, if all fields that they may mention are there. -/
theorem current (h : c.Stands known P seen s held st) {fields : Snapshot}
    (hseen : ∀ k, s.seen k = fields) (hheads : ∀ name ∈ s.design.heads, (fields name).isSome) :
    s.Current fields := by
  intro k u hu name hname
  rw [← h.fits.follows.holes, List.getElem?_map, Option.map_eq_some_iff] at hu
  obtain ⟨x, hx, rfl⟩ := hu
  have hmentioned := h.fits.mentioned h.simple x (List.mem_of_getElem? hx)
  rw [hseen k]
  exact ⟨hheads name (hmentioned (Upkeep.mentioned_bare x.2 ▸ hname)), rfl⟩

/-- A copy whose effects have seen the fields as they are shows what it should. -/
theorem markup_of_current (h : c.Stands known P seen s held st)
    (hcurrent : s.Current (st.snapshot c.scope.vm)) :
    Tree.markupAll (P.roots.map st.world.nodes.tree) =
      Tree.markupAll (s.design.target (st.fieldValue c.scope.vm)) := by
  refine h.keeps.markup h.fits fun x hx name hname ↦ ?_
  obtain ⟨k, hk⟩ := List.mem_iff_getElem?.mp hx
  rw [h.saw k x hk]
  exact (hcurrent k x.2.bare (h.getElem?_holes hk) name (Upkeep.mentioned_bare x.2 ▸ hname)).2

/-! ### Writes -/

/-- The effects that a write queues are those that wait for the field. -/
theorem mem_queue_written (h : c.Stands known P seen s held st) (hregular : st.Regular known)
    (hidle : st.graph.Idle) (hvm : c.scope.vm ∈ known) {w : ViewModelId} (hw : w ∈ known)
    (name : String) (value : Value) {x : EffectId × Upkeep} (hx : x ∈ P.holes) :
    x.1 ∈ (st.written w name value).graph.queue ↔
      c.scope.vm = w ∧ name ∈ x.2.mentioned ∧ (seen x.1 name).isSome := by
  constructor
  · intro hmem
    rw [State.graph_written] at hmem
    have hsubscribers : x.1 ∈ (st.graph.signal (st.declare w name).1).subscribers := by
      rcases State.graph_declare st w name with hgraph | ⟨hnew, hgraph⟩
      · rw [hgraph] at hmem
        refine (Graph.of_mem_queue_write hmem).resolve_right fun hq ↦ ?_
        exact absurd (hidle.queue ▸ hq) List.not_mem_nil
      · rw [hgraph] at hmem
        refine absurd (Graph.of_mem_queue_write hmem) (not_or.mpr ⟨fun hs ↦ ?_, fun hq ↦ ?_⟩)
        · rw [hnew, Graph.signal_newSignal, if_pos rfl] at hs
          exact List.not_mem_nil hs
        · have hq : x.1 ∈ st.graph.queue := hq
          exact absurd (hidle.queue ▸ hq) List.not_mem_nil
    obtain ⟨other, hother, hfield, hsome⟩ := h.attends x hx _ hsubscribers
    obtain ⟨hvm, rfl⟩ := hregular.eq_of_field?_declare hw hvm hfield
    exact ⟨hvm, hother, hsome⟩
  · rintro ⟨rfl, hname, hsome⟩
    obtain ⟨signal, hfield, -, hsubscribes⟩ := h.keeps.reads x hx name hname hsome
    rw [State.graph_written, State.declare_of_some hfield]
    exact h.keeps.flagged.mem_queue_write value (h.keeps.hole x hx).2.1 hsubscribes

/-- What the effect of a hole has seen after a write: the field, if it waited for it. -/
theorem saw_written (h : c.Stands known P seen s held st) (hregular : st.Regular known)
    (hidle : st.graph.Idle) (hvm : c.scope.vm ∈ known) {w : ViewModelId} (hw : w ∈ known)
    (name : String) (value : Value) {k : Nat} {x : EffectId × Upkeep}
    (hx : P.holes[k]? = some x) :
    Snapshot.refresh (st.written w name value).graph.queue
        ((st.written w name value).snapshot c.scope.vm) seen x.1 =
      (if c.scope.vm = w then
        s.see name (Function.update (st.snapshot w) name (some value)) else s).seen k := by
  have hqueued := h.mem_queue_written hregular hidle hvm hw name value (List.mem_of_getElem? hx)
  -- The effect is queued if and only if the standing says that it waits for the field.
  by_cases hvw : c.scope.vm = w
  · subst hvw
    rw [if_pos rfl, hregular.snapshot_written hw hvm name value, if_pos rfl, Standing.see]
    have hattends : s.attends name k = true ↔
        name ∈ x.2.mentioned ∧ (seen x.1 name).isSome = true := by
      rw [Standing.attends, h.getElem?_holes hx, Option.any_some, Upkeep.mentioned_bare,
        Bool.and_eq_true, decide_eq_true_iff, ← h.saw k x hx]
    by_cases hq : x.1 ∈ (st.written c.scope.vm name value).graph.queue
    · rw [Snapshot.refresh_of_mem hq]
      exact (if_pos (hattends.mpr (hqueued.mp hq).2)).symm
    · rw [Snapshot.refresh_of_not_mem hq, h.saw k x hx]
      exact (if_neg fun hc ↦ hq (hqueued.mpr ⟨rfl, hattends.mp hc⟩)).symm
  · rw [if_neg hvw, Snapshot.refresh_of_not_mem fun hq ↦ hvw (hqueued.mp hq).1, h.saw k x hx]

/-- After a write, an effect still subscribes only to fields that it has seen: it did so before, or
it has just run. -/
theorem attends_written (h : c.Stands known P seen s held st) (hregular : st.Regular known)
    (hvm : c.scope.vm ∈ known) {w : ViewModelId} (hw : w ∈ known) (name : String) (value : Value)
    (hworks : (st.written w name value).Reworks (st.written w name value).graph.queue st')
    {x : EffectId × Upkeep} (hx : x ∈ P.holes) {signal : SignalId}
    (hsubscribes : x.1 ∈ (st'.graph.signal signal).subscribers) :
    ∃ other ∈ x.2.mentioned,
      (st'.world.viewModel c.scope.vm).field? other = some signal ∧
        (Snapshot.refresh (st.written w name value).graph.queue
          ((st.written w name value).snapshot c.scope.vm) seen x.1 other).isSome := by
  rw [hworks.viewModel_eq]
  rcases hworks.readers signal x.1 hsubscribes with hold | ⟨hq, u, hbody, hsignal⟩
  · obtain ⟨other, hother, hfield, hsome⟩ :=
      h.attends x hx signal (State.Regular.of_mem_subscribers_written hold)
    refine ⟨other, hother, State.field?_declare_of_some' hfield, ?_⟩
    by_cases hq : x.1 ∈ (st.written w name value).graph.queue
    · rw [Snapshot.refresh_of_mem hq]
      exact State.isSome_snapshot_written (hregular.isSome_snapshot hvm hfield) w name value
    · rw [Snapshot.refresh_of_not_mem hq]
      exact hsome
  · rw [Snapshot.refresh_of_mem hq]
    obtain ⟨hxvm, -, hxbody⟩ := h.keeps.hole x hx
    rw [← State.body_written st w name value, hbody] at hxbody
    obtain rfl := Upkeep.routine_injective (Option.some.inj hxbody)
    rw [hxvm] at hsignal
    obtain ⟨other, hother, hfield⟩ := List.mem_filterMap.mp hsignal
    exact ⟨other, hother, hfield, (hregular.written hw name value).isSome_snapshot hvm hfield⟩

/-- A field that is written is seen by the effects that wait for it, and the copy stands. -/
theorem set (h : c.Stands known P seen s held st) (hregular : st.Regular known)
    (hidle : st.graph.Idle) (hvm : c.scope.vm ∈ known) {w : ViewModelId} (hw : w ∈ known)
    (name : String) (value : Value)
    (hkeeps : st'.Keeps known c.scope.vm c.above (s.row c) P
      (Snapshot.refresh (st.written w name value).graph.queue
        ((st.written w name value).snapshot c.scope.vm) seen) [])
    (hworks : (st.written w name value).Reworks (st.written w name value).graph.queue st') :
    c.Stands known P (Snapshot.refresh (st.written w name value).graph.queue
      ((st.written w name value).snapshot c.scope.vm) seen)
      (if c.scope.vm = w then
        s.see name (Function.update (st.snapshot w) name (some value)) else s) held st' := by
  refine ⟨?_, ?_, ?_, h.ids, fun _ _ ↦ h.saw_written hregular hidle hvm hw name value,
    fun _ hx _ ↦ h.attends_written hregular hvm hw name value hworks hx, ?_, h.top⟩
  · split
    · exact hkeeps
    · exact hkeeps
  · split
    · exact h.fits
    · exact h.fits
  · split
    · exact h.simple
    · exact h.simple
  · have hprogresses := h.progresses
    split
    · cases held <;> exact hprogresses
    · exact hprogresses

/-! ### Disposals -/

/-- A copy stands while another one is disposed. -/
theorem disposed_other (h : c.Stands known P seen s held st) (w : ViewModelId)
    {es : List EffectId} (hnot : ∀ x ∈ P.holes, x.1 ∉ es) (ids : List BindingId) :
    c.Stands known P seen s held (st.disposed w es ids) where
  keeps := h.keeps.disposed_other w hnot ids
  fits := h.fits
  simple := h.simple
  ids := h.ids
  saw := h.saw
  attends x hx signal hsubscribes := by
    have hsubscribes : x.1 ∈ ((st.graph.stopAll es).signal signal).subscribers := hsubscribes
    rw [Graph.signal_stopAll] at hsubscribes
    exact h.attends x hx signal hsubscribes
  progresses := h.progresses
  top := h.top

/-- A copy that is disposed is left as it is. -/
theorem disposed_own (h : c.Stands known P seen s held st) (w : ViewModelId)
    (ids : List BindingId) :
    ∃ Q, c.Stands known Q seen s.rest .disposed (st.disposed w (P.holes.map Prod.fst) ids) ∧
      Q.labels = P.labels ∧ Q.roots = P.roots := by
  obtain ⟨v, hshows, hv⟩ := h.keeps.shows
  have hlabels : (Picture.still (P.forest v)).labels = P.labels := h.fits.sound.labels v
  have hroots : (Picture.still (P.forest v)).roots = P.roots := h.fits.sound.roots v
  have hforest := h.mapAll_forest hv
  refine ⟨.still (P.forest v), ⟨?_, ?_, trivial, List.nodup_nil, fun k x hx ↦ ?_,
    fun _ hx ↦ absurd hx List.not_mem_nil, rfl, fun habove ↦ hroots ▸ h.top habove⟩, hlabels,
    hroots⟩
  · exact h.keeps.disposed_own h.fits.sound w ids hshows
  · have hrest : Tree.mapAll (fun _ : Unit ↦ (default : NodeId)) s.forest =
        Tree.mapAll (fun _ ↦ default) (P.forest v) := by
      rw [← hforest, Tree.mapAll_mapAll]
    refine .still (h.fits.sound.labels v ▸ h.fits.nodup) ?_ fun field ↦ ⟨?_, ?_⟩
    · change Sketch.still (Tree.mapAll _ (Tree.mapAll _ s.forest)) = _
      rw [hrest, Tree.mapAll_mapAll]
    · change _ = Tree.markupAll (Tree.mapAll _ s.forest)
      rw [hrest, Tree.markupAll_mapAll]
    · change _ = (Tree.mapAll _ s.forest).isEmpty
      rw [hrest]
      cases P.forest v <;> rfl
  · exact absurd (List.mem_of_getElem? hx) List.not_mem_nil

end Stands

/-! ### Before executions -/

/-- Whether a copy is shown in a state where nothing was executed on it. Whoever reads a field keeps
something up to date elsewhere. -/
structure Awaits (known : List ViewModelId) (c : Copy C) (st : LiveState C H) : Prop where
  sound : c.Sound
  mem : c.scope.vm ∈ known
  gone : (st.world.viewModel c.scope.vm).gone = false
  shows : st.world.nodes.Shows id (c.live.asNodes c.above)
  listed : c.live.kind = .text → ∀ p ∈ c.above, c.live.label ∈ (st.world.nodes.get p).children
  readers : ∀ e, st.graph.isActive e = true → (∃ w ∈ known, st.Reads w e) → ∃ u : Upkeep,
    (st.graph.effect e).body = some u.routine ∧ u.Spares c.live.labels st.world.nodes

theorem Awaits.stands {known : List ViewModelId} {c : Copy C} {st : LiveState C H}
    (h : c.Awaits known st) (hidle : st.graph.Idle) (seen : EffectId → Snapshot) :
    c.Stands known (.still [c.live]) seen (.pending c.live) .pending st where
  keeps := by
    refine ⟨h.gone, fun e he ↦ ?_, fun _ hx ↦ absurd hx List.not_mem_nil,
      fun _ hx ↦ absurd hx List.not_mem_nil, fun e he hlate _ ↦ ?_, fun p hp n hn ↦ ?_,
      fun _ ↦ "", ?_, fun _ hx ↦ absurd hx List.not_mem_nil⟩
    · exact absurd (he.symm.trans (hidle.queued e)) Bool.noConfusion
    · have hlabels : (Picture.still [c.live]).labels = c.live.labels := Tree.labelsAll_singleton _
      exact hlabels ▸ h.readers e he (hlate.resolve_right List.not_mem_nil)
    · obtain rfl := List.mem_singleton.mp hn
      obtain ⟨hkind, hp⟩ := Standing.of_mem_row hp
      exact h.listed hkind p hp
    · exact (Tree.asNodesAll_singleton c.above c.live).symm ▸ h.shows
  fits := .still (Tree.labelsAll_singleton c.live ▸ h.sound.nodup) rfl fun _ ↦ ⟨rfl, rfl⟩
  simple := trivial
  ids := List.nodup_nil
  saw _ _ hx := absurd (List.mem_of_getElem? hx) List.not_mem_nil
  attends _ hx := absurd hx List.not_mem_nil
  progresses := ⟨rfl, rfl⟩
  top _ := rfl

/-! ### Executions -/

/-- Whether nodes stand where a copy stood that was executed: a text has given its place to others
in the row above it, any other root stays. -/
def Succeeds (c : Copy C) (s s' : NodeStore) (roots : List NodeId) : Prop :=
  ∃ p pre post, (c.live.kind = .text →
      c.above = some p ∧ (s.get p).children = pre ++ c.live.label :: post) ∧
    Compiler.Succeeds c.live p pre post roots s'

/-- Whether a copy is drawn between two states. -/
structure Drawn (c : Copy C) (X : List NodeId) (P : Picture) (st st' : LiveState C H) : Prop extends
    st.DrawsOver c.scope.vm c.above c.live X (c.design (st.fieldValue c.scope.vm)) P st' where
  top : c.above = none → P.roots.head? = some c.live.label
  succeeds : (c.live.kind = .text → c.above ≠ none) →
    c.Succeeds st.world.nodes st'.world.nodes P.roots

section Executions

variable {c : Copy C} {p : NodeId} {pre post : List NodeId} {st st' : LiveState C H}

theorem exists_above (h : c.live.kind = .text → c.above ≠ none) :
    ∃ p, c.live.kind = .text → c.above = some p := by
  cases habove : c.above with
  | none => exact ⟨default, fun hkind ↦ absurd habove (h hkind)⟩
  | some p => exact ⟨p, fun _ ↦ rfl⟩

/-- A copy that is no text, or has a place, is drawn as what its template renders to. -/
theorem design_of_above (h : c.live.kind = .text → c.above = some p) (frozen : String → Value) :
    c.design frozen = c.compiler.designAll frozen [c.live] := by
  obtain ⟨compiler, template, ⟨n, kind, attrs, data, children⟩, above, scope⟩ := c
  cases kind with
  | text =>
    obtain rfl : above = some p := h rfl
    rfl
  | element tag => rfl
  | comment => rfl
  | fragment => rfl

/-- What such a copy is drawn as depends on the fields that the template does, and shows what the
template renders to. -/
theorem Sound.design_of_above (hc : c.Sound) (h : c.live.kind = .text → c.above = some p)
    (frozen : String → Value) : (c.design frozen).heads = c.compiler.heads c.template ∧
      ∀ field, Tree.markupAll ((c.design frozen).target field) =
        (c.compiler.render field frozen c.template).markup := by
  rw [Copy.design_of_above h]
  refine ⟨?_, fun field ↦ ?_⟩
  · rw [← c.compiler.heads_map fun _ ↦ (), ← Tree.plain, ← hc.plain, Tree.plain,
      c.compiler.heads_map]
    exact List.append_nil _
  · rw [← c.compiler.markup_render_of_plain _ _ hc.plain]
    exact List.append_nil _

theorem design_of_top (hkind : c.live.kind = .text) (habove : c.above = none)
    (frozen : String → Value) : c.design frozen =
      if Interpolation.hasExpression c.live.data.toList then Interpolation.beside c.live
      else c.compiler.designAll frozen [c.live] := by
  rw [design, hkind, habove]

theorem Sound.interpolates_live (hc : c.Sound) : c.compiler.Interpolates c.live :=
  hc.interpolates.of_plain hc.plain

theorem Sound.simple_design (hc : c.Sound) (frozen : String → Value) :
    (c.design frozen).simple := by
  have hsimple : (c.compiler.designAll frozen [c.live]).simple := by
    simpa [Compiler.designAll, Tree.attributeListsAll] using hc.interpolates_live.undirected
  rw [design]
  split
  · split
    · exact ⟨trivial, trivial, trivial⟩
    · exact hsimple
  · exact hsimple

variable (client : Client C H) (fuel limit : Nat)

theorem exists_drawn_of_placed (hc : c.Sound)
    (hst : st.world.nodes.Shows id (c.live.asNodes c.above))
    (habove : c.live.kind = .text → c.above = some p)
    (hplace : c.live.kind = .text →
      st.world.nodes.Placed c.live.label p pre post ∧ p.index < st.world.nodes.size)
    (hgone : (st.world.viewModel c.scope.vm).gone = false) :
    ∃ st' X P, (client.meaning.runner (fuel + 1)).Links limit
        (Program.linkAny c.scope c.live.label (c.compiler.compile c.template).1) st () st' ∧
      c.Drawn X P st st' := by
  obtain ⟨st', X, P, hlinks, hover, hroots⟩ :=
    Compiler.draws_root client fuel limit hc.builtin hc.interpolates_live hst hc.nodup hplace hgone
  rw [c.compiler.compile_fst_of_plain c.live c.template hc.plain] at hlinks
  refine ⟨st', X, P, hlinks, ⟨design_of_above habove _ ▸ hover, fun htop ↦ ?_,
    fun _ ↦ ⟨p, pre, post, fun hkind ↦ ?_, hroots⟩⟩⟩
  · have hkind : c.live.kind ≠ .text := fun hkind ↦
      Option.some_ne_none p ((habove hkind).symm.trans htop)
    rw [hroots.roots_eq hkind]
    rfl
  · exact ⟨habove hkind, (hplace hkind).1.children⟩

theorem exists_drawn_of_top (hc : c.Sound) (hkind : c.live.kind = .text) (habove : c.above = none)
    (hst : st.world.nodes.Shows id (c.live.asNodes c.above))
    (hgone : (st.world.viewModel c.scope.vm).gone = false) :
    ∃ st' X P, (client.meaning.runner (fuel + 1)).Links limit
        (Program.linkAny c.scope c.live.label (c.compiler.compile c.template).1) st () st' ∧
      c.Drawn X P st st' := by
  have hproper := hc.interpolates_live.proper
  rw [habove] at hst
  obtain ⟨st', P, hlinks, hover, hroots⟩ :=
    c.compiler.draws_alone client fuel limit hc.builtin hproper hkind hst hgone
  rw [c.compiler.compile_fst_of_plain c.live c.template hc.plain] at hlinks
  refine ⟨st', [], P, hlinks, ⟨?_, fun _ ↦ hroots, fun h ↦ absurd habove (h hkind)⟩⟩
  rw [habove, design_of_top hkind habove]
  exact hover

variable {known : List ViewModelId} {P : Picture} {seen : EffectId → Snapshot} {s : Standing}

namespace Drawn

variable {X : List NodeId} {Q : Picture}

theorem fits (h : c.Drawn X Q st st') : Q.Fits (c.design (st.snapshot c.scope.vm).value) :=
  State.value_snapshot st _ ▸ h.draws.fits

/-- What the ledger has gained is one entry for each effect, under the identities that come next. -/
theorem progresses (h : c.Drawn X Q st st') (hregular : st.Regular known)
    (hvm : c.scope.vm ∈ known) : c.Progresses Q
      ⟨.live, c.design (st.snapshot c.scope.vm).value, fun _ ↦ st.snapshot c.scope.vm,
        BindingId.issued (st.world.ledgerOf c.scope.vm).next
          ((st.world.ledgerOf c.scope.vm).next +
            (c.design (st.snapshot c.scope.vm).value).sketch.holes.length)⟩
      (.live ⟨c.scope.vm, (st'.world.ledgerOf c.scope.vm).since
        (st.world.ledgerOf c.scope.vm).watermark⟩) := by
  have hholes : Q.holes.length = (c.design (st.snapshot c.scope.vm).value).sketch.holes.length :=
    h.fits.follows.length_holes
  have hledger := hregular.ledgerOf_of_installs hvm hvm h.draws.installs
  rw [if_pos rfl] at hledger
  have hsince := Ledger.since_registerAll (hregular.sound hvm) (effectBindings (C := C) Q.holes)
  rw [← hledger, effectBindings, List.length_map, hholes, ← effectBindings] at hsince
  have hlength : (BindingId.issued (st.world.ledgerOf c.scope.vm).next
      ((st.world.ledgerOf c.scope.vm).next +
        (c.design (st.snapshot c.scope.vm).value).sketch.holes.length)).length =
      (effectBindings (C := C) Q.holes).length := by
    rw [effectBindings, List.length_map, hholes, BindingId.issued, List.length_map,
      List.length_range', Nat.add_sub_cancel_left]
  refine ⟨rfl, rfl, ?_, ?_⟩
  · rw [Disposer.ids, hsince]
    exact List.map_fst_zip hlength.le
  · rw [hsince]
    exact List.map_snd_zip hlength.ge

end Drawn

namespace Stands

/-- A copy on which nothing was executed is shown as it is. -/
theorem shows_live (h : c.Stands known P seen s .pending st) :
    s.stage = .pending ∧ P = .still [c.live] ∧
      st.world.nodes.Shows id (c.live.asNodes c.above) := by
  obtain ⟨hstage, rfl⟩ := h.progresses
  obtain ⟨v, hshows, -⟩ := h.keeps.shows
  exact ⟨hstage, rfl, Tree.asNodesAll_singleton c.above c.live ▸ hshows⟩

/-- Executing the program of the template draws the copy where it stands. -/
theorem exists_drawn (h : c.Stands known P seen s .pending st) (hc : c.Sound) :
    ∃ st' X Q, (client.meaning.runner (fuel + 1)).Links limit
        (Program.linkAny c.scope c.live.label (c.compiler.compile c.template).1) st () st' ∧
      c.Drawn X Q st st' := by
  obtain ⟨hstage, rfl, hst⟩ := h.shows_live
  by_cases hkind : c.live.kind = .text
  · cases habove : c.above with
    | none => exact exists_drawn_of_top client fuel limit hc hkind habove hst h.keeps.gone
    | some p =>
      have hrow : s.row c = some p := by rw [Standing.row, hstage, hkind, habove]
      have hlisted : c.live.label ∈ (st.world.nodes.get p).children :=
        h.keeps.listed p hrow _ List.mem_cons_self
      obtain ⟨pre, post, hchildren, hpre⟩ := List.eq_append_cons_of_mem hlisted
      obtain ⟨hlt, hget⟩ := hst.root
      -- A text has no children, so that it is not below itself.
      have hempty : (st.world.nodes.get c.live.label).children = [] := by
        rw [hget, hc.interpolates_live.proper.children_eq_nil (hkind ▸ rfl)]
        rfl
      have hne : c.live.label ≠ p := by
        rintro rfl
        exact List.not_mem_nil (hempty ▸ hlisted)
      have hparent : (st.world.nodes.get c.live.label).parent = some p := by rw [hget, habove]
      exact exists_drawn_of_placed client fuel limit hc hst (fun _ ↦ habove) (fun _ ↦
        ⟨⟨hlt, hne, hparent, hchildren, hpre⟩, NodeStore.lt_of_mem_children hlisted⟩) h.keeps.gone
  · have hplace : c.live.kind = .text → st.world.nodes.Placed c.live.label default [] [] ∧
        (default : NodeId).index < st.world.nodes.size := fun hc ↦ absurd hc hkind
    exact exists_drawn_of_placed client fuel limit hc hst (fun hc ↦ absurd hc hkind) hplace
      h.keeps.gone

section Others

variable {c' : Copy C} {Q Q' : Picture} {seen' : EffectId → Snapshot} {s' : Standing}
  {held : Progress C} {X : List NodeId}

/-- Another copy has no node of one that is executed, neither an old one nor one that is made. -/
theorem disjoint_drawn (h : c.Stands known P seen s held st)
    (h' : c'.Stands known Q seen' s' .pending st) (hdrawn : c'.Drawn X Q' st st')
    (hdisjoint : List.Disjoint P.labels Q.labels) : List.Disjoint P.labels Q'.labels := by
  obtain ⟨-, rfl, -⟩ := h'.shows_live
  have hlabels : (Picture.still [c'.live]).labels = c'.live.labels := Tree.labelsAll_singleton _
  exact h.keeps.disjoint_over h.fits.sound hdrawn.toDrawsOver (hlabels ▸ hdisjoint)

/-- A copy stands while another one is executed. -/
theorem of_drawn (h : c.Stands known P seen s held st)
    (h' : c'.Stands known Q seen' s' .pending st) (hidle : st.graph.Idle)
    (hdrawn : c'.Drawn X Q' st st') (hdisjoint : List.Disjoint P.labels Q.labels) :
    c.Stands known P seen s held st' := by
  have hinstalls := hdrawn.draws.installs
  obtain ⟨-, rfl, hst⟩ := h'.shows_live
  have hlabels : (Picture.still [c'.live]).labels = c'.live.labels := Tree.labelsAll_singleton _
  have hkeeps := h.keeps.over_other h.fits.sound hdrawn.toDrawsOver (hlabels ▸ hdisjoint) hst hidle
    fun e he hreads ↦ hlabels ▸ h'.keeps.others e he (.inl hreads) List.not_mem_nil
  refine ⟨hkeeps, h.fits, h.simple, h.ids, h.saw, fun x hx signal hsubscribes ↦ ?_,
    h.progresses, h.top⟩
  rw [hinstalls.viewModel_eq]
  rcases hinstalls.readers signal x.1 hsubscribes with hold | ⟨y, hy, hyx, -⟩ | hcurrent
  · exact h.attends x hx signal hold
  · -- The effects of the other copy are new.
    have hlt := Graph.lt_of_isActive (h.keeps.hole x hx).2.1
    exact absurd (hyx ▸ (hinstalls.range y hy).1) (Nat.not_le.mpr hlt)
  · exact absurd (hcurrent.symm.trans hidle.current) (Option.some_ne_none _)

end Others

/-- A copy that is executed stands: its effects have seen the fields, and what there is to dispose
are these effects. -/
theorem executed (h : c.Stands known P seen s .pending st) (hc : c.Sound)
    (hregular : st.Regular known) (hidle : st.graph.Idle) (hvm : c.scope.vm ∈ known)
    {X : List NodeId} {Q : Picture} (hdrawn : c.Drawn X Q st st') :
    c.Stands known Q (fun _ ↦ st.snapshot c.scope.vm)
      ⟨.live, c.design (st.snapshot c.scope.vm).value, fun _ ↦ st.snapshot c.scope.vm,
        BindingId.issued (st.world.ledgerOf c.scope.vm).next
          ((st.world.ledgerOf c.scope.vm).next +
            (c.design (st.snapshot c.scope.vm).value).sketch.holes.length)⟩
      (.live ⟨c.scope.vm, (st'.world.ledgerOf c.scope.vm).since
        (st.world.ledgerOf c.scope.vm).watermark⟩) st' := by
  obtain ⟨-, rfl, hst⟩ := h.shows_live
  have hinstalls := hdrawn.draws.installs
  have hlabels : (Picture.still [c.live]).labels = c.live.labels := Tree.labelsAll_singleton c.live
  refine ⟨?_, hdrawn.fits, hc.simple_design _, hinstalls.nodup, fun _ _ _ ↦ rfl,
    fun x hx signal hsubscribes ↦ ?_, hdrawn.progresses hregular hvm, hdrawn.top⟩
  · refine hdrawn.keeps h.keeps.gone hidle fun e he hreads ↦ ?_
    exact hlabels ▸ h.keeps.others e he (.inl hreads) List.not_mem_nil
  · -- Whoever subscribed before is no effect of the copy.
    rcases hinstalls.readers signal x.1 hsubscribes with hold | ⟨y, hy, hyx, hsignal⟩ | hcurrent
    · exact absurd (hregular.subscribers signal x.1 hold) (Nat.not_lt.mpr (hinstalls.range x hx).1)
    · obtain rfl := List.inj_on_of_nodup_map hinstalls.nodup hy hx hyx
      obtain ⟨name, hname, hfield⟩ := List.mem_filterMap.mp hsignal
      rw [hinstalls.viewModel_eq]
      exact ⟨name, hname, hfield, hregular.isSome_snapshot hvm hfield⟩
    · exact absurd (hcurrent.symm.trans hidle.current) (Option.some_ne_none _)

end Stands

end Executions

end Copy

end LiveMarkup
