import LiveMarkup.Proofs.Live.Fields
import LiveMarkup.Proofs.Live.Installing

/-!
# Keeping pictures up to date

A picture that is drawn shows what its effects have seen. Every effect that fills a hole subscribes
to all fields that it mentions and has seen, a write queues all subscribers, and working off the
queue runs each effect once, since none of them writes a field. `State.Keeps` is what holds of a
picture in between. Many pictures are kept side by side, for many view-models: the run of an effect
that belongs to one of them leaves the others alone (`State.Keeps.rerun`), so that after a write the
effects that were queued have seen the fields as they are, and nothing else has changed
(`State.Keeps.set`).

Other effects may read the same fields as long as what they keep up to date is elsewhere
(`Upkeep.Spares`).
-/

namespace LiveMarkup

variable {C H : Type}

/-! ## Work elsewhere -/

/-- Only nodes that exist have children. -/
theorem NodeStore.lt_of_mem_children {s : NodeStore} {n p : NodeId}
    (h : n ∈ (s.get p).children) : p.index < s.size := by
  by_contra hge
  rw [get_of_not_lt hge] at h
  exact List.not_mem_nil h

namespace Upkeep

/-- A text that is put in its place leaves all rows as they are where it leaves the structure of
trees alone. -/
theorem mem_children_of_keepsShape {u : Upkeep} {s : NodeStore} {n p : NodeId}
    (hshape : u.KeepsShape (s.get u.node).kind) (h : n ∈ (s.get p).children) (text : String) :
    n ∈ ((u.put text s).get p).children := by
  have hsame := (agrees_skeleton_put hshape text).get p (NodeStore.lt_of_mem_children h)
    List.not_mem_nil
  have hsame : ((u.put text s).get p).children = (s.get p).children :=
    congrArg (fun k ↦ k.2.1) hsame
  rwa [hsame]

/-- An attribute never matters to the structure of trees, and a text is the content of its node. -/
theorem keepsShape_or_put (u : Upkeep) :
    (∀ kind, u.KeepsShape kind) ∨ ∀ text s, u.put text s = s.setTextContent u.node text := by
  cases u with
  | text vm node expression => exact .inr fun _ _ ↦ rfl
  | attr vm node name expression => exact .inl fun _ ↦ trivial
  | interpolatedAttr vm node name template => exact .inl fun _ ↦ trivial

/-- Whether what is kept up to date is elsewhere than some nodes, even if it is the whole content of
a node. -/
structure Spares (u : Upkeep) (X : List NodeId) (s : NodeStore) : Prop where
  lt : u.node.index < s.size
  not_mem : u.node ∉ X
  shape : u.KeepsShape (s.get u.node).kind ∨ (s.get u.node).kind.isContainer = true ∧
    s.Parental u.node ∧ ∀ c ∈ (s.get u.node).children, c ∉ X

namespace Spares

variable {u u' : Upkeep} {X Y : List NodeId} {s s' : NodeStore}

/-- What is elsewhere stays elsewhere while the structure outside is left alone. -/
theorem of_surrounds (h : u.Spares X s) (hs : s.Surrounds X s')
    (hY : ∀ n ∈ Y, n ∈ X ∨ s.size ≤ n.index) : u.Spares Y s' := by
  have hout {n : NodeId} (hlt : n.index < s.size) (hn : n ∉ X) : n ∉ Y := fun hmem ↦
    (hY n hmem).elim hn fun hge ↦ Nat.not_lt.mpr hge hlt
  have hkind := hs.kind u.node h.lt h.not_mem
  refine ⟨Nat.lt_of_lt_of_le h.lt hs.size, hout h.lt h.not_mem, ?_⟩
  rcases h.shape with hshape | ⟨hcontainer, hparental, hchildren⟩
  · exact .inl (hkind ▸ hshape)
  · refine .inr ⟨hkind ▸ hcontainer, hparental.of_surrounds hs h.not_mem hchildren, fun c hc ↦ ?_⟩
    rw [hs.children_eq h.lt h.not_mem hchildren] at hc
    exact hout (hparental.children_lt c hc) (hchildren c hc)

/-- What is elsewhere than some nodes and elsewhere than others is elsewhere than both. -/
theorem append (h : u.Spares X s) (h' : u.Spares Y s) : u.Spares (X ++ Y) s where
  lt := h.lt
  not_mem := List.not_mem_append h.not_mem h'.not_mem
  shape := by
    rcases h.shape with hshape | ⟨hcontainer, hparental, hchildren⟩
    · exact .inl hshape
    · refine h'.shape.imp_right fun hrest ↦ ⟨hcontainer, hparental, fun c hc ↦ ?_⟩
      exact List.not_mem_append (hchildren c hc) (hrest.2.2 c hc)

/-- A text that is put in its place changes none of the nodes. -/
theorem agrees_put (h : u.Spares X s) (text : String) :
    ∃ Y, s.Agrees id Y (u.put text s) ∧ ∀ n ∈ X, n ∉ Y := by
  have hkeeps (hshape : u.KeepsShape (s.get u.node).kind) :
      ∃ Y, s.Agrees id Y (u.put text s) ∧ ∀ n ∈ X, n ∉ Y := by
    refine ⟨[u.node], Upkeep.agrees_put hshape text, fun n hn hmem ↦ h.not_mem ?_⟩
    exact List.mem_singleton.mp hmem ▸ hn
  rcases h.shape with hshape | ⟨hcontainer, hparental, hchildren⟩
  · exact hkeeps hshape
  · rcases u.keepsShape_or_put with hshape | hput
    · exact hkeeps (hshape _)
    · rw [hput]
      refine ⟨_, hparental.agrees_setTextContent hcontainer text, fun n hn hmem ↦ ?_⟩
      rcases List.mem_cons.mp hmem with rfl | hc
      · exact h.not_mem hn
      · exact hchildren n hc hn

theorem setTextContent (h : u.Spares X s) {n : NodeId} (hn : s.Parental n)
    (hk : (s.get n).kind.isContainer = true) (hX : ∀ m ∈ X, m.index < s.size) (text : String) :
    u.Spares X (s.setTextContent n text) := by
  have hget := hn.get_setTextContent hk text u.node
  have hne : u.node ≠ ⟨s.size⟩ := fun he ↦ Nat.ne_of_lt h.lt (congrArg NodeId.index he)
  have hkind : ((s.setTextContent n text).get u.node).kind = (s.get u.node).kind := by
    rw [hget, if_neg hne]
    split
    · rename_i he
      rw [he]
    · split <;> rfl
  refine ⟨?_, h.not_mem, h.shape.imp (hkind ▸ ·) fun ⟨hcontainer, hparental, hchildren⟩ ↦ ?_⟩
  · rw [NodeStore.size_setTextContent_of_container hk]
    exact Nat.lt_succ_of_lt h.lt
  · refine ⟨hkind ▸ hcontainer, hn.setTextContent hk hparental text, fun c hc ↦ ?_⟩
    rw [hget, if_neg hne] at hc
    split at hc
    · obtain rfl := List.mem_singleton.mp hc
      exact fun hmem ↦ Nat.lt_irrefl _ (hX _ hmem)
    · split at hc
      · exact hchildren c hc
      · exact hchildren c hc

/-- What is elsewhere stays elsewhere if a text is put elsewhere. -/
theorem put (h : u.Spares X s) (h' : u'.Spares X s) (hX : ∀ m ∈ X, m.index < s.size)
    (text : String) : u.Spares X (u'.put text s) := by
  have hkeeps (hshape : u'.KeepsShape (s.get u'.node).kind) : u.Spares X (u'.put text s) :=
    h.of_surrounds ((agrees_skeleton_put hshape text).mono (List.nil_subset _)).surrounds
      fun _ hn ↦ .inl hn
  rcases h'.shape with hshape | ⟨hcontainer, hparental, -⟩
  · exact hkeeps hshape
  · rcases u'.keepsShape_or_put with hshape | hput
    · exact hkeeps (hshape _)
    · rw [hput]
      exact h.setTextContent hparental hcontainer hX text

/-- A node that is spared stays in the rows that list it. -/
theorem mem_children_put (h : u.Spares X s) {n p : NodeId} (hn : n ∈ X)
    (hp : n ∈ (s.get p).children) (text : String) : n ∈ ((u.put text s).get p).children := by
  rcases h.shape with hshape | ⟨hcontainer, hparental, hchildren⟩
  · exact mem_children_of_keepsShape hshape hp text
  · rcases u.keepsShape_or_put with hshape | hput
    · exact mem_children_of_keepsShape (hshape _) hp text
    · have hne : p ≠ u.node := by
        rintro rfl
        exact hchildren n hp hn
      have hnew : p ≠ ⟨s.size⟩ := fun he ↦
        Nat.ne_of_lt (NodeStore.lt_of_mem_children hp) (congrArg NodeId.index he)
      rw [hput, hparental.get_setTextContent hcontainer, if_neg hne, if_neg hnew]
      split <;> exact hp

end Spares

/-- What is kept up to date is told by the body of the effect. -/
theorem routine_injective : Function.Injective (routine (C := C)) := by
  intro u u' h
  cases u <;> cases u' <;> cases h <;> rfl

end Upkeep

/-! ## Work that was done -/

namespace State

/-- Whether a state differs from another only in nodes, in what waits to run, and in that some
effects subscribe to fields that what they keep up to date mentions. -/
structure Reworks (es : List EffectId) (st st' : LiveState C H) : Prop where
  world : st'.world = { st.world with nodes := st'.world.nodes }
  signals : st'.graph.signals.size = st.graph.signals.size
  value : ∀ s, st'.graph.value s = st.graph.value s
  readers : ∀ s, ∀ e ∈ (st'.graph.signal s).subscribers, e ∈ (st.graph.signal s).subscribers ∨
    e ∈ es ∧ ∃ u : Upkeep, (st.graph.effect e).body = some u.routine ∧
      s ∈ st.signalsOf u.vm u.mentioned
  size : st'.graph.effects.size = st.graph.effects.size
  active : ∀ e, st'.graph.isActive e = st.graph.isActive e
  body : ∀ e, (st'.graph.effect e).body = (st.graph.effect e).body
  current : st'.graph.current = st.graph.current
  flushing : st'.graph.flushing = st.graph.flushing

namespace Reworks

variable {es es' : List EffectId} {e : EffectId} {st st₁ st₂ : LiveState C H}

theorem refl (es : List EffectId) (st : LiveState C H) : st.Reworks es st :=
  ⟨rfl, rfl, fun _ ↦ rfl, fun _ _ he ↦ .inl he, rfl, fun _ ↦ rfl, fun _ ↦ rfl, rfl, rfl⟩

theorem viewModel_eq (h : st.Reworks es st₁) : st₁.world.viewModel = st.world.viewModel := by
  rw [h.world]
  rfl

theorem snapshot (h : st.Reworks es st₁) (vm : ViewModelId) : st₁.snapshot vm = st.snapshot vm :=
  snapshot_congr (congrFun h.viewModel_eq vm) h.signals h.value

theorem trans (h : st.Reworks es st₁) (h' : st₁.Reworks es' st₂) :
    st.Reworks (es ++ es') st₂ where
  world := by rw [h'.world, h.world]
  signals := h'.signals.trans h.signals
  value s := (h'.value s).trans (h.value s)
  readers s e he := by
    rcases h'.readers s e he with he | ⟨he, u, hbody, hs⟩
    · exact (h.readers s e he).imp_right fun hrun ↦ ⟨List.mem_append_left es' hrun.1, hrun.2⟩
    · rw [h.body] at hbody
      rw [signalsOf, h.viewModel_eq] at hs
      exact .inr ⟨List.mem_append_right es he, u, hbody, hs⟩
  size := h'.size.trans h.size
  active e := (h'.active e).trans (h.active e)
  body e := (h'.body e).trans (h.body e)
  current := h'.current.trans h.current
  flushing := h'.flushing.trans h.flushing

/-- What waits to run is not work that was done. -/
theorem dequeue {g : Graph Value (Routine C)} (h : st.graph.dequeue? = some (e, g)) :
    st.Reworks [] (st.withGraph g) where
  world := rfl
  signals := congrArg Array.size (Graph.signals_dequeue h)
  value := Graph.value_dequeue h
  readers s e' he' := by
    rw [graph_withGraph, Graph.signal, Graph.signals_dequeue h] at he'
    exact .inl he'
  size := Graph.size_dequeue h
  active := Graph.isActive_dequeue h
  body := Graph.body_dequeue h
  current := Graph.current_dequeue h
  flushing := Graph.flushing_dequeue h

/-- A run of an effect is work. -/
theorem rerun {u : Upkeep} (hactive : st.graph.isActive e = true)
    (hbody : (st.graph.effect e).body = some u.routine) : st.Reworks [e] (st.rerun e u) := by
  have hgains := gains_rerun hactive hbody
  refine ⟨?_, hgains.signals, hgains.value, fun s e' he' ↦ ?_, hgains.size, hgains.isActive,
    fun e' ↦ congrArg Effect.body (hgains.effect e'), hgains.current, hgains.flushing⟩
  · cases hgone : (st.world.viewModel u.vm).gone with
    | true => rw [world_rerun_of_gone hgone]
    | false =>
      rw [world_rerun hgone]
      rfl
  · refine (of_mem_subscribers_rerun he').imp_right fun ⟨he', hs⟩ ↦ ?_
    subst he'
    exact ⟨List.mem_singleton_self _, u, hbody, hs⟩

end Reworks

end State

/-! ## What effects have seen -/

namespace Snapshot

/-- What effects have seen once some of them have run while the fields were as given. -/
def refresh (es : List EffectId) (fields : Snapshot) (seen : EffectId → Snapshot) :
    EffectId → Snapshot := fun e ↦ if e ∈ es then fields else seen e

variable {es : List EffectId} {e : EffectId} {fields : Snapshot} {seen : EffectId → Snapshot}

theorem refresh_of_mem (h : e ∈ es) : refresh es fields seen e = fields := if_pos h

theorem refresh_of_not_mem (h : e ∉ es) : refresh es fields seen e = seen e := if_neg h

theorem refresh_nil (fields : Snapshot) (seen : EffectId → Snapshot) :
    refresh [] fields seen = seen := funext fun _ ↦ refresh_of_not_mem List.not_mem_nil

theorem refresh_refresh (e : EffectId) (es : List EffectId) (fields : Snapshot)
    (seen : EffectId → Snapshot) :
    refresh es fields (refresh [e] fields seen) = refresh (e :: es) fields seen := by
  funext e'
  simp only [refresh, List.mem_cons, List.not_mem_nil, or_false]
  by_cases he : e' = e <;> by_cases hes : e' ∈ es <;> simp [he, hes]

end Snapshot

/-- Whether the holes of a picture can be filled, each by an effect of its own. -/
structure Picture.Fillable (P : Picture) : Prop where
  sound : P.Sound
  retouchable : P.Retouchable
  ids : (P.holes.map Prod.fst).Nodup

/-! ## Pictures that are kept up to date -/

namespace State

/-- Whether an effect subscribes to a field of a view-model. -/
def Reads (st : LiveState C H) (vm : ViewModelId) (e : EffectId) : Prop :=
  ∃ name s, (st.world.viewModel vm).field? name = some s ∧ e ∈ (st.graph.signal s).subscribers

/-- Whether a picture for a view-model, below `q`, shows what its effects have seen, and goes on to
do so: whoever fills a hole reads the fields that it mentions and has seen, and whoever else is late
or reads a field that may be written works elsewhere. If the roots have to stay in a row, they are
listed there. -/
structure Keeps (written : List ViewModelId) (vm : ViewModelId) (q row : Option NodeId)
    (P : Picture) (seen : EffectId → Snapshot) (late : List EffectId) (st : LiveState C H) :
    Prop where
  gone : (st.world.viewModel vm).gone = false
  flagged : st.graph.Flagged
  hole : ∀ h ∈ P.holes, h.2.vm = vm ∧ st.graph.isActive h.1 = true ∧
    (st.graph.effect h.1).body = some h.2.routine
  reads : ∀ h ∈ P.holes, ∀ name ∈ h.2.mentioned, (seen h.1 name).isSome → ∃ s,
    (st.world.viewModel vm).field? name = some s ∧ s.index < st.graph.signals.size ∧
      h.1 ∈ (st.graph.signal s).subscribers
  others : ∀ e, st.graph.isActive e = true → (∃ w ∈ written, st.Reads w e) ∨ e ∈ late →
    e ∉ P.holes.map Prod.fst → ∃ u : Upkeep,
      (st.graph.effect e).body = some u.routine ∧ u.Spares P.labels st.world.nodes
  listed : ∀ p ∈ row, ∀ n ∈ P.roots, n ∈ (st.world.nodes.get p).children
  shows : ∃ v, st.world.nodes.Shows id (Tree.asNodesAll q (P.forest v)) ∧
    ∀ h ∈ P.holes, v h.1 = h.2.value (seen h.1).value

namespace Keeps

section One

variable {written : List ViewModelId} {vm : ViewModelId} {q row : Option NodeId} {P : Picture}
  {seen seen' : EffectId → Snapshot} {e : EffectId} {late : List EffectId} {st st' : LiveState C H}

theorem lt_of_mem_labels (h : st.Keeps written vm q row P seen late) (hP : P.Sound) {n : NodeId}
    (hn : n ∈ P.labels) : n.index < st.world.nodes.size := by
  obtain ⟨v, hv, -⟩ := h.shows
  exact hv.lt_of_mem_labelsAll (hP.labels v ▸ hn)

/-- Roots are listed in their row, as are all nodes of the trees. -/
theorem roots_subset (hP : P.Sound) : P.roots ⊆ P.labels := by
  intro n hn
  rw [← hP.labels fun _ ↦ ""]
  exact (Tree.map_label_sublist_labelsAll _).subset hn

/-- It does not matter what others have seen. -/
theorem congr_seen (h : st.Keeps written vm q row P seen late)
    (hseen : ∀ x ∈ P.holes, seen' x.1 = seen x.1) : st.Keeps written vm q row P seen' late where
  gone := h.gone
  flagged := h.flagged
  hole := h.hole
  reads x hx name hname hsome := h.reads x hx name hname (hseen x hx ▸ hsome)
  others := h.others
  listed := h.listed
  shows := by
    obtain ⟨v, hshows, hv⟩ := h.shows
    exact ⟨v, hshows, fun x hx ↦ (hseen x hx).symm ▸ hv x hx⟩

/-- Nothing depends on the queue, nor on whether it is being worked off. -/
theorem of_graph (h : st.Keeps written vm q row P seen late) {g : Graph Value (Routine C)}
    (hflagged : g.Flagged) (hsignals : g.signals = st.graph.signals)
    (hactive : ∀ e, g.isActive e = st.graph.isActive e)
    (hbody : ∀ e, (g.effect e).body = (st.graph.effect e).body) :
    (st.withGraph g).Keeps written vm q row P seen late := by
  have hsignal (s : SignalId) : g.signal s = st.graph.signal s := by
    rw [Graph.signal, hsignals, Graph.signal]
  refine ⟨h.gone, hflagged, fun x hx ↦ ?_, fun x hx name hname hsome ↦ ?_, fun e he hlate hnot ↦ ?_,
    h.listed, h.shows⟩
  · rw [graph_withGraph, hactive, hbody]
    exact h.hole x hx
  · obtain ⟨s, hs, hlt, hmem⟩ := h.reads x hx name hname hsome
    exact ⟨s, hs, hsignals ▸ hlt, (hsignal s).symm ▸ hmem⟩
  · rw [graph_withGraph, hactive] at he
    rw [graph_withGraph, hbody]
    refine h.others e he (hlate.imp_left ?_) hnot
    rintro ⟨w, hw, name, s, hs, hmem⟩
    exact ⟨w, hw, name, s, hs, hsignal s ▸ hmem⟩

/-! ### Runs of effects -/

/-- A run of an effect makes it punctual, if it reads only and the picture shows what was seen. -/
theorem of_gains (h : st.Keeps written vm q row P seen (e :: late))
    (hgains : st.graph.Gains st'.graph)
    (hreaders : ∀ s, ∀ e' ∈ (st'.graph.signal s).subscribers,
      e' ∈ (st.graph.signal s).subscribers ∨ e' = e)
    (hworld : st'.world = { st.world with nodes := st'.world.nodes })
    (hspares : ∀ u : Upkeep, u.Spares P.labels st.world.nodes → u.Spares P.labels st'.world.nodes)
    (hlisted : ∀ p, ∀ n ∈ P.roots, n ∈ (st.world.nodes.get p).children →
      n ∈ (st'.world.nodes.get p).children)
    (hreads : ∀ x ∈ P.holes, ∀ name ∈ x.2.mentioned, (seen' x.1 name).isSome →
      (seen x.1 name).isSome ∨ ∃ s, (st.world.viewModel vm).field? name = some s ∧
        s.index < st.graph.signals.size ∧ x.1 ∈ (st'.graph.signal s).subscribers)
    (hshows : ∃ v, st'.world.nodes.Shows id (Tree.asNodesAll q (P.forest v)) ∧
      ∀ h ∈ P.holes, v h.1 = h.2.value (seen' h.1).value) :
    st'.Keeps written vm q row P seen' late := by
  have hvm : st'.world.viewModel = st.world.viewModel := by
    rw [hworld]
    rfl
  refine ⟨hvm ▸ h.gone, fun e' he' ↦ ?_, fun x hx ↦ ?_, fun x hx name hname hsome ↦ ?_,
    fun e' he' hlate hnot ↦ ?_, fun p hp n hn ↦ hlisted p n hn (h.listed p hp n hn), hshows⟩
  · rw [hgains.effect] at he'
    rw [hgains.queue]
    exact h.flagged e' he'
  · rw [hgains.isActive, hgains.effect]
    exact h.hole x hx
  · rw [hvm, hgains.signals]
    rcases hreads x hx name hname hsome with hsome | hread
    · obtain ⟨s, hs, hlt, hmem⟩ := h.reads x hx name hname hsome
      exact ⟨s, hs, hlt, hgains.subscribers s hmem⟩
    · exact hread
  · rw [hgains.isActive] at he'
    rw [hgains.effect]
    -- Whoever reads a field now read it before, or is the effect that ran.
    have hlate : (∃ w ∈ written, st.Reads w e') ∨ e' ∈ e :: late := by
      rcases hlate with ⟨w, hw, name, s, hs, hmem⟩ | hlate
      · rcases hreaders s e' hmem with hmem | rfl
        · exact .inl ⟨w, hw, name, s, hvm ▸ hs, hmem⟩
        · exact .inr List.mem_cons_self
      · exact .inr (List.mem_cons_of_mem e hlate)
    obtain ⟨u, hbody, hu⟩ := h.others e' he' hlate hnot
    exact ⟨u, hbody, hspares u hu⟩

/-- The effect of a hole fills it with what it sees. -/
theorem rerun_hole (h : st.Keeps written vm q row P seen (e :: late)) (hP : P.Fillable)
    {u : Upkeep} (hu : (e, u) ∈ P.holes) :
    (st.rerun e u).Keeps written vm q row P (Snapshot.refresh [e] (st.snapshot vm) seen) late := by
  obtain ⟨hvm, hactive, hbody⟩ := h.hole _ hu
  have hvm : u.vm = vm := hvm
  have hgone : (st.world.viewModel u.vm).gone = false := hvm ▸ h.gone
  have hworld := world_rerun hgone e
  rw [hvm] at hworld
  obtain ⟨v, hshows, hv⟩ := h.shows
  have hplace := hP.sound.place _ hu v q
  have hshape : u.KeepsShape (st.world.nodes.get u.node).kind := by
    obtain ⟨x, hx, hnode, hshape⟩ := hplace
    have hget : st.world.nodes.get x.1 = x.2 := (hshows x hx).2
    exact hnode ▸ hget ▸ hshape
  have hsurrounds := ((Upkeep.agrees_skeleton_put hshape (u.value (st.fieldValue vm))).mono
    (List.nil_subset P.labels)).surrounds
  have hmem : e ∈ [e] := List.mem_singleton_self e
  refine h.of_gains (gains_rerun hactive hbody)
    (fun _ _ he ↦ (of_mem_subscribers_rerun he).imp_right And.left) (by rw [hworld]; rfl)
    (fun u' hu' ↦ ?_) (fun p n hn hlisted ↦ ?_) (fun x hx name hname hsome ↦ ?_)
    ⟨Function.update v e (u.value (st.fieldValue vm)), ?_, fun x hx ↦ ?_⟩
  · rw [hworld]
    exact hu'.of_surrounds hsurrounds fun _ hn ↦ .inl hn
  · rw [hworld]
    exact Upkeep.mem_children_of_keepsShape hshape hlisted _
  · by_cases hx' : x.1 = e
    · -- The effect has subscribed to every field that it has just seen.
      obtain rfl := List.inj_on_of_nodup_map hP.ids hx hu hx'
      rw [Snapshot.refresh_of_mem hmem] at hsome
      obtain ⟨s, hs, hlt⟩ := isSome_snapshot.mp hsome
      refine .inr ⟨s, hs, hlt, mem_subscribers_rerun hgone ?_ hlt _⟩
      exact List.mem_filterMap.mpr ⟨name, hname, hvm.symm ▸ hs⟩
    · rw [Snapshot.refresh_of_not_mem fun hc ↦ hx' (List.mem_singleton.mp hc)] at hsome
      exact .inl hsome
  · rw [hworld, ← hP.retouchable _ hu]
    exact Upkeep.shows_put hshows hplace _
  · by_cases hx' : x.1 = e
    · obtain rfl := List.inj_on_of_nodup_map hP.ids hx hu hx'
      rw [Snapshot.refresh_of_mem hmem, value_snapshot]
      exact Function.update_self ..
    · rw [Function.update_of_ne hx',
        Snapshot.refresh_of_not_mem fun hc ↦ hx' (List.mem_singleton.mp hc)]
      exact hv x hx

/-- An effect that works elsewhere leaves the picture alone. -/
theorem rerun_other (h : st.Keeps written vm q row P seen (e :: late)) (hP : P.Sound)
    (hactive : st.graph.isActive e = true) {u : Upkeep}
    (hbody : (st.graph.effect e).body = some u.routine)
    (hu : u.Spares P.labels st.world.nodes) :
    (st.rerun e u).Keeps written vm q row P seen late := by
  obtain ⟨v, hshows, hv⟩ := h.shows
  have hgains := gains_rerun hactive hbody
  have hreaders (s : SignalId) (e' : EffectId)
      (he' : e' ∈ ((st.rerun e u).graph.signal s).subscribers) :
      e' ∈ (st.graph.signal s).subscribers ∨ e' = e :=
    (of_mem_subscribers_rerun he').imp_right And.left
  cases hgone : (st.world.viewModel u.vm).gone with
  | true =>
    have hworld := world_rerun_of_gone hgone e
    exact h.of_gains hgains hreaders (by rw [hworld]) (fun u' hu' ↦ hworld ▸ hu')
      (fun p n _ hlisted ↦ hworld ▸ hlisted) (fun _ _ _ _ hsome ↦ .inl hsome)
      ⟨v, hworld ▸ hshows, hv⟩
  | false =>
    have hworld := world_rerun hgone e
    refine h.of_gains hgains hreaders (by rw [hworld]; rfl) (fun u' hu' ↦ ?_)
      (fun p n hn hlisted ↦ ?_) (fun _ _ _ _ hsome ↦ .inl hsome) ⟨v, ?_, hv⟩
    · rw [hworld]
      exact hu'.put hu (fun m hm ↦ h.lt_of_mem_labels hP hm) _
    · rw [hworld]
      exact hu.mem_children_put (roots_subset hP hn) hlisted _
    · obtain ⟨Y, hagrees, hY⟩ := hu.agrees_put (u.value (st.fieldValue u.vm))
      rw [hworld]
      refine hshows.of_agrees hagrees fun x hx ↦ hY _ ?_
      exact hP.labels v ▸ Tree.mem_labelsAll_of_mem_asNodesAll hx

/-- What an effect that has to run keeps up to date. -/
theorem exists_upkeep (h : st.Keeps written vm q row P seen late) (he : e ∈ late)
    (hactive : st.graph.isActive e = true) :
    ∃ u : Upkeep, (st.graph.effect e).body = some u.routine := by
  by_cases hmem : e ∈ P.holes.map Prod.fst
  · obtain ⟨x, hx, rfl⟩ := List.mem_map.mp hmem
    exact ⟨x.2, (h.hole x hx).2.2⟩
  · obtain ⟨u, hbody, -⟩ := h.others e hactive (.inr he) hmem
    exact ⟨u, hbody⟩

/-- An effect that runs is late no more; if it is one of the picture's, it has seen the fields. -/
theorem rerun (h : st.Keeps written vm q row P seen (e :: late)) (hP : P.Fillable)
    (hactive : st.graph.isActive e = true) {u : Upkeep}
    (hbody : (st.graph.effect e).body = some u.routine) :
    (st.rerun e u).Keeps written vm q row P (Snapshot.refresh [e] (st.snapshot vm) seen) late := by
  have hsame {u' : Upkeep} (hbody' : (st.graph.effect e).body = some u'.routine) : u' = u :=
    Upkeep.routine_injective (Option.some.inj (hbody'.symm.trans hbody))
  by_cases hmem : e ∈ P.holes.map Prod.fst
  · obtain ⟨⟨e', u'⟩, hx, rfl⟩ := List.mem_map.mp hmem
    obtain rfl := hsame (h.hole _ hx).2.2
    exact h.rerun_hole hP hx
  · obtain ⟨u', hbody', hu⟩ := h.others e hactive (.inr List.mem_cons_self) hmem
    obtain rfl := hsame hbody'
    refine (h.rerun_other hP.sound hactive hbody hu).congr_seen fun x hx ↦ ?_
    refine Snapshot.refresh_of_not_mem fun hc ↦ hmem ?_
    exact List.mem_singleton.mp hc ▸ List.mem_map_of_mem hx

/-- An effect that was stopped need not run. -/
theorem skip (h : st.Keeps written vm q row P seen (e :: late))
    (hactive : st.graph.isActive e = false) (fields : Snapshot) :
    st.Keeps written vm q row P (Snapshot.refresh [e] fields seen) late := by
  have hne : ∀ x ∈ P.holes, x.1 ∉ [e] := by
    intro x hx hmem
    obtain rfl := List.mem_singleton.mp hmem
    exact absurd ((h.hole x hx).2.1.symm.trans hactive) Bool.noConfusion
  refine ⟨h.gone, h.flagged, h.hole, fun x hx name hname hsome ↦ ?_, fun e' he' hlate hnot ↦ ?_,
    h.listed, ?_⟩
  · rw [Snapshot.refresh_of_not_mem (hne x hx)] at hsome
    exact h.reads x hx name hname hsome
  · exact h.others e' he' (hlate.imp_right (List.mem_cons_of_mem e)) hnot
  · obtain ⟨v, hshows, hv⟩ := h.shows
    exact ⟨v, hshows, fun x hx ↦ (hv x hx).trans (by rw [Snapshot.refresh_of_not_mem (hne x hx)])⟩

end One

/-! ### Many pictures -/

section Many

variable {ι : Type} [Nonempty ι] {written : List ViewModelId} {vm : ι → ViewModelId}
  {q row : ι → Option NodeId} {P : ι → Picture} {seen : ι → EffectId → Snapshot} {e : EffectId}
  {late : List EffectId} {st : LiveState C H}

/-- An effect that runs is late no more, whichever picture it belongs to. -/
theorem runEffect (client : Client C H) (hP : ∀ i, (P i).Fillable)
    (h : ∀ i, st.Keeps written (vm i) (q i) (row i) (P i) (seen i) (e :: late)) :
    ∃ st', (∀ fuel, (client.meaning.runner (fuel + 1)).runEffect e st = some st') ∧
      (∀ i, st'.Keeps written (vm i) (q i) (row i) (P i)
        (Snapshot.refresh [e] (st.snapshot (vm i)) (seen i)) late) ∧
      st.Reworks [e] st' ∧ st'.graph.queue = st.graph.queue := by
  cases hactive : st.graph.isActive e with
  | false =>
    exact ⟨st, fun fuel ↦ Runner.runEffect_of_inactive _ st hactive,
      fun i ↦ (h i).skip hactive _, .refl _ _, rfl⟩
  | true =>
    obtain ⟨i⟩ := ‹Nonempty ι›
    obtain ⟨u, hbody⟩ := (h i).exists_upkeep List.mem_cons_self hactive
    exact ⟨_, fun fuel ↦ client.runEffect_upkeep fuel st hactive hbody,
      fun i ↦ (h i).rerun (hP i) hactive hbody, .rerun hactive hbody,
      (gains_rerun hactive hbody).queue⟩

/-- Once the queue is worked off nobody is late, and whoever was queued has seen the fields. -/
theorem drain (client : Client C H) (hP : ∀ i, (P i).Fillable)
    (h : ∀ i, st.Keeps written (vm i) (q i) (row i) (P i) (seen i) st.graph.queue) :
    ∃ st', (∀ fuel limit, st.graph.queue.length ≤ limit →
        (client.meaning.runner (fuel + 1)).drain limit st = some st') ∧
      (∀ i, st'.Keeps written (vm i) (q i) (row i) (P i)
        (Snapshot.refresh st.graph.queue (st.snapshot (vm i)) (seen i)) []) ∧
      st.Reworks st.graph.queue st' ∧ st'.graph.queue = [] := by
  induction hqueue : st.graph.queue generalizing st seen with
  | nil =>
    refine ⟨st, fun fuel limit _ ↦ ?_, fun i ↦ ?_, .refl _ _, hqueue⟩
    · exact Runner.drain_of_none _ st (Graph.dequeue?_eq_none_iff.mpr hqueue)
    · rw [Snapshot.refresh_nil]
      exact hqueue ▸ h i
  | cons e rest ih =>
    cases hdequeue : st.graph.dequeue? with
    | none =>
      have hempty := hqueue.symm.trans (Graph.dequeue?_eq_none_iff.mp hdequeue)
      exact absurd hempty (List.cons_ne_nil e rest)
    | some x =>
      obtain ⟨e', g⟩ := x
      have hqueue' := (Graph.dequeue?_eq_some hdequeue).1
      rw [hqueue, List.cons.injEq] at hqueue'
      obtain ⟨rfl, rfl⟩ := hqueue'
      have hg (i : ι) : (st.withGraph g).Keeps written (vm i) (q i) (row i) (P i) (seen i)
          (e :: g.queue) :=
        (hqueue ▸ h i).of_graph ((h i).flagged.dequeue hdequeue) (Graph.signals_dequeue hdequeue)
          (Graph.isActive_dequeue hdequeue) (Graph.body_dequeue hdequeue)
      obtain ⟨st₁, hrun, hst₁, hworks, hqueue₁⟩ := runEffect client hP hg
      have hqueue₁ : st₁.graph.queue = g.queue := hqueue₁
      obtain ⟨st', hdrain, hst', hworks', hempty⟩ := ih (hqueue₁ ▸ hst₁) hqueue₁
      -- No run changes a field, so that all see the same.
      have hworks₁ : st.Reworks [e] st₁ := (Reworks.dequeue hdequeue).trans hworks
      have hsnapshot (i : ι) : (st.withGraph g).snapshot (vm i) = st.snapshot (vm i) :=
        (Reworks.dequeue hdequeue).snapshot (vm i)
      refine ⟨st', fun fuel limit hlimit ↦ ?_, fun i ↦ ?_, hworks₁.trans hworks', hempty⟩
      · obtain ⟨limit, rfl⟩ := Nat.exists_eq_succ_of_ne_zero (Nat.ne_zero_of_lt hlimit)
        rw [Runner.drain_succ_of_some _ st hdequeue, hrun]
        exact hdrain fuel limit (Nat.le_of_succ_le_succ hlimit)
      · have hlast := hst' i
        rwa [hworks₁.snapshot, hsnapshot, Snapshot.refresh_refresh] at hlast

/-- A flush works off the queue. -/
theorem flush (client : Client C H) (hP : ∀ i, (P i).Fillable)
    (h : ∀ i, st.Keeps written (vm i) (q i) (row i) (P i) (seen i) st.graph.queue)
    (hflushing : st.graph.flushing = false) :
    ∃ st', (∀ fuel limit, st.graph.queue.length ≤ limit →
        (client.meaning.runner (fuel + 1)).flush limit st = some st') ∧
      (∀ i, st'.Keeps written (vm i) (q i) (row i) (P i)
        (Snapshot.refresh st.graph.queue (st.snapshot (vm i)) (seen i)) []) ∧
      st.Reworks st.graph.queue st' ∧ st'.graph.queue = [] := by
  let st₀ : LiveState C H := st.withGraph { st.graph with flushing := true }
  have hstart (i : ι) : st₀.Keeps written (vm i) (q i) (row i) (P i) (seen i) st₀.graph.queue :=
    (h i).of_graph (h i).flagged rfl (fun _ ↦ rfl) fun _ ↦ rfl
  obtain ⟨st₁, hdrain, hst₁, hworks, hempty⟩ := drain client hP hstart
  refine ⟨st₁.withGraph { st₁.graph with flushing := false }, fun fuel limit hlimit ↦ ?_,
    fun i ↦ ?_, ⟨hworks.world, hworks.signals, hworks.value, hworks.readers, hworks.size, hworks.active,
      hworks.body, hworks.current, hflushing.symm⟩, hempty⟩
  · rw [Runner.flush_of_not_flushing _ _ hflushing]
    exact congrArg (Option.map _) (hdrain fuel limit hlimit)
  · exact (hst₁ i).of_graph (hst₁ i).flagged rfl (fun _ ↦ rfl) fun _ ↦ rfl

end Many

end Keeps

/-! ## Writes -/

/-- Whoever subscribes to the signal of a field reads it. -/
theorem reads_declare (st : LiveState C H) (vm : ViewModelId) (name : String) :
    ∀ e ∈ ((st.declare vm name).2.graph.signal (st.declare vm name).1).subscribers,
      (st.declare vm name).2.Reads vm e := by
  intro e he
  cases hname : (st.world.viewModel vm).field? name with
  | some s =>
    rw [declare_of_some hname] at he ⊢
    exact ⟨name, s, hname, he⟩
  | none =>
    rw [declare_of_none hname, Graph.signal_newSignal, if_pos rfl] at he
    exact absurd he List.not_mem_nil

namespace Keeps

section One

variable {written : List ViewModelId} {vm : ViewModelId} {q row : Option NodeId} {P : Picture}
  {seen : EffectId → Snapshot} {late : List EffectId} {st : LiveState C H}

/-- Declaring a field changes nothing; nobody reads the field if it is new. -/
theorem declare (h : st.Keeps written vm q row P seen late) (w : ViewModelId) (name : String) :
    (st.declare w name).2.Keeps written vm q row P seen late := by
  have hgone : ((st.declare w name).2.world.viewModel vm).gone = false := by
    by_cases hvm : vm = w
    · subst hvm
      exact (gone_declare st vm name).trans h.gone
    · rw [viewModel_declare_of_ne hvm]
      exact h.gone
  have hnodes : (st.declare w name).2.world.nodes = st.world.nodes := by rw [world_declare]
  have hfield {w' : ViewModelId} {other : String} {s : SignalId}
      (h : (st.world.viewModel w').field? other = some s) :
      ((st.declare w name).2.world.viewModel w').field? other = some s := field?_declare_of_some' h
  have hold {w' : ViewModelId} {other : String} {s : SignalId}
      (h : ((st.declare w name).2.world.viewModel w').field? other = some s) :
      (st.world.viewModel w').field? other = some s ∨ s = (st.declare w name).1 :=
    of_field?_declare' h
  rcases graph_declare st w name with hgraph | ⟨hnew, hgraph⟩
  · cases hname : (st.world.viewModel w).field? name with
    | some s => rwa [declare_of_some hname]
    | none =>
      rw [declare_of_none hname] at hgraph
      have hsize := congrArg (fun g ↦ g.signals.size) hgraph
      rw [Graph.size_newSignal] at hsize
      exact absurd hsize (Nat.succ_ne_self _)
  refine ⟨hgone, ?_, ?_, fun x hx other hother hsome ↦ ?_, fun e he hlate hnot ↦ ?_,
    hnodes ▸ h.listed, hnodes ▸ h.shows⟩
  · rw [hgraph]
    exact h.flagged
  · rw [hgraph]
    exact h.hole
  · obtain ⟨s, hs, hlt, hmem⟩ := h.reads x hx other hother hsome
    rw [hgraph]
    refine ⟨s, hfield hs, ?_, ?_⟩
    · exact Nat.lt_of_lt_of_le hlt (Graph.size_newSignal st.graph .null ▸ Nat.le_succ _)
    · rwa [Graph.signal_newSignal_of_lt hlt]
  · rw [hgraph] at he ⊢
    rw [hnodes]
    refine h.others e he (hlate.imp_left fun ⟨w', hw', other, s, hs, hmem⟩ ↦ ?_) hnot
    rw [hgraph, Graph.signal_newSignal] at hmem
    split at hmem
    · exact absurd hmem List.not_mem_nil
    · rename_i hne
      exact ⟨w', hw', other, s, (hold hs).resolve_right (hnew ▸ hne), hmem⟩

/-- A write makes everybody late who fills a hole from its field. -/
theorem write (h : st.Keeps written vm q row P seen []) (hqueue : st.graph.queue = [])
    {s : SignalId} (hs : ∀ e ∈ (st.graph.signal s).subscribers, ∃ w ∈ written, st.Reads w e)
    (value : Value) :
    (st.withGraph (st.graph.write s value)).Keeps written vm q row P seen
      (st.graph.write s value).queue := by
  refine ⟨h.gone, h.flagged.write s value, fun x hx ↦ ?_, fun x hx name hname hsome ↦ ?_,
    fun e he hlate hnot ↦ ?_, h.listed, h.shows⟩
  · rw [graph_withGraph, Graph.isActive_write, Graph.body_write]
    exact h.hole x hx
  · obtain ⟨s', hs', hlt, hmem⟩ := h.reads x hx name hname hsome
    refine ⟨s', hs', ?_, Graph.mem_subscribers_write _ _ _ (h.hole x hx).2.1 hmem⟩
    rwa [graph_withGraph, Graph.size_signals_write]
  · rw [graph_withGraph, Graph.isActive_write] at he
    rw [graph_withGraph, Graph.body_write]
    refine h.others e he (.inl ?_) hnot
    rcases hlate with ⟨w, hw, name, s', hs', hmem⟩ | hmem
    · exact ⟨w, hw, name, s', hs', Graph.of_mem_subscribers_write hmem⟩
    · rcases Graph.of_mem_queue_write hmem with hmem | hmem
      · exact hs e hmem
      · exact absurd (hqueue ▸ hmem) List.not_mem_nil

end One

section Many

variable {ι : Type} [Nonempty ι] {written : List ViewModelId} {vm : ι → ViewModelId}
  {q row : ι → Option NodeId} {P : ι → Picture} {seen : ι → EffectId → Snapshot}
  {st : LiveState C H}

/-- **Writes keep pictures up to date.** After a write, the effects that read the field have seen
the fields as they are now, and nothing else has changed. -/
theorem set (client : Client C H) (hP : ∀ i, (P i).Fillable)
    (h : ∀ i, st.Keeps written (vm i) (q i) (row i) (P i) (seen i) [])
    (hqueue : st.graph.queue = []) (hflushing : st.graph.flushing = false) {w : ViewModelId}
    (hw : w ∈ written) (name : String) (value : Value) :
    ∃ st' bound, (∀ fuel limit, bound ≤ limit →
        (client.meaning.runner (fuel + 1)).Yields limit (w.set name value) st () st') ∧
      (∀ i, st'.Keeps written (vm i) (q i) (row i) (P i)
        (Snapshot.refresh (st.written w name value).graph.queue
          ((st.written w name value).snapshot (vm i)) (seen i)) []) ∧
      (st.written w name value).Reworks (st.written w name value).graph.queue st' ∧
      st'.graph.queue = [] := by
  have hqueue₁ : (st.declare w name).2.graph.queue = [] :=
    (part_declare Graph.queue (fun _ _ ↦ rfl) st w name).trans hqueue
  have hwrite (i : ι) : (st.written w name value).Keeps written (vm i) (q i) (row i) (P i) (seen i)
      (st.written w name value).graph.queue :=
    ((h i).declare w name).write hqueue₁
      (fun e he ↦ ⟨w, hw, reads_declare st w name e he⟩) value
  obtain ⟨st', hflush, hst', hworks, hempty⟩ :=
    flush client hP hwrite ((flushing_written st w name value).trans hflushing)
  refine ⟨st', (st.written w name value).graph.queue.length, fun fuel limit hlimit ↦
    (Runner.Yields.declare w name st).bind ?_, hst', hworks, hempty⟩
  exact congrArg (Option.bind · ((client.meaning.runner (fuel + 1)).run limit (Script.done ())))
    (hflush fuel limit hlimit)

end Many

end Keeps

end State

end LiveMarkup
