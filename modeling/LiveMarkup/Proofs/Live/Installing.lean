import LiveMarkup.Proofs.Live.Performing
import LiveMarkup.Proofs.Live.Picture

/-!
# Installing effects

What carrying out the program of a template with the two directives of this library does beside
changing nodes: it adds effects, each with what it keeps up to date and subscribed to every field
that mentions, and enters each of them into the ledger of the view-model (`State.Installs`). Effects
that were there before are left alone, and no field changes.
-/

namespace LiveMarkup

variable {C H : Type}

/-! ## Ledgers in which something is entered -/

namespace Ledger

variable {β : Type}

theorem registerAll_append (l : Ledger β) (bs cs : List β) :
    l.registerAll (bs ++ cs) = (l.registerAll bs).registerAll cs := List.foldl_append

theorem modify_registerAll_nil (ledgers : Array (Ledger β)) (i : Nat) :
    ledgers.modify i (registerAll · []) = ledgers := by
  refine Array.ext_getElem? fun j ↦ ?_
  rw [Array.getElem?_modify]
  split
  · exact Option.map_id' ..
  · rfl

theorem modify_registerAll_append (ledgers : Array (Ledger β)) (i : Nat) (bs cs : List β) :
    (ledgers.modify i (registerAll · bs)).modify i (registerAll · cs) =
      ledgers.modify i (registerAll · (bs ++ cs)) := by
  refine Array.ext_getElem? fun j ↦ ?_
  simp only [Array.getElem?_modify, registerAll_append]
  split
  · exact Option.map_map ..
  · rfl

end Ledger

/-- What is entered into a ledger for effects. -/
def effectBindings (holes : List (EffectId × Upkeep)) : List (Binding C) :=
  holes.map fun h ↦ .effect h.1

namespace State

/-- Whether a state differs from another only in nodes and holdings, in new effects, which are the
given ones, in their entries in the ledger of the view-model, and in subscriptions. -/
structure Installs (vm : ViewModelId) (holes : List (EffectId × Upkeep))
    (st st' : LiveState C H) : Prop where
  world : st'.world = { st.world with
    nodes := st'.world.nodes
    ledgers := st.world.ledgers.modify (st.world.viewModel vm).ledger.index
      (Ledger.registerAll · (effectBindings holes))
    holdings := st'.world.holdings }
  signals : st'.graph.signals.size = st.graph.signals.size
  value : ∀ s, st'.graph.value s = st.graph.value s
  subscribers : ∀ s, (st.graph.signal s).subscribers ⊆ (st'.graph.signal s).subscribers
  queue : st'.graph.queue = st.graph.queue
  current : st'.graph.current = st.graph.current
  flushing : st'.graph.flushing = st.graph.flushing
  size : st.graph.effects.size ≤ st'.graph.effects.size
  old : ∀ e, e.index < st.graph.effects.size → st'.graph.effect e = st.graph.effect e
  new : ∀ e, st.graph.effects.size ≤ e.index → e.index < st'.graph.effects.size →
    e ∈ holes.map Prod.fst
  range : ∀ h ∈ holes, st.graph.effects.size ≤ h.1.index ∧ h.1.index < st'.graph.effects.size
  effect : ∀ h ∈ holes, st'.graph.effect h.1 = ⟨some h.2.routine, true, false⟩
  vm_eq : ∀ h ∈ holes, h.2.vm = vm
  subscribed : ∀ h ∈ holes, ∀ s ∈ st.signalsOf vm h.2.mentioned,
    s.index < st.graph.signals.size → h.1 ∈ (st'.graph.signal s).subscribers
  readers : ∀ s, ∀ e ∈ (st'.graph.signal s).subscribers, e ∈ (st.graph.signal s).subscribers ∨
    (∃ h ∈ holes, h.1 = e ∧ s ∈ st.signalsOf vm h.2.mentioned) ∨ st.graph.current = some e
  nodup : (holes.map Prod.fst).Nodup

namespace Installs

variable {vm : ViewModelId} {hs ks : List (EffectId × Upkeep)} {st st₁ st₂ : LiveState C H}

theorem viewModel_eq (h : Installs vm hs st st₁) (vm' : ViewModelId) :
    st₁.world.viewModel vm' = st.world.viewModel vm' := by
  rw [h.world]
  rfl

theorem signalsOf (h : Installs vm hs st st₁) (vm' : ViewModelId) (names : List String) :
    st₁.signalsOf vm' names = st.signalsOf vm' names := by
  rw [State.signalsOf, State.signalsOf, h.viewModel_eq]

theorem fieldValue (h : Installs vm hs st st₁) (vm' : ViewModelId) :
    st₁.fieldValue vm' = st.fieldValue vm' := by
  funext name
  rw [State.fieldValue, State.fieldValue, h.viewModel_eq]
  cases (st.world.viewModel vm').field? name with
  | none => rfl
  | some s => exact h.value s

/-- Nothing is installed by work on nodes and holdings. -/
theorem of_world (vm : ViewModelId) {st st₁ : LiveState C H} (hgraph : st₁.graph = st.graph)
    (hworld : st₁.world =
      { st.world with nodes := st₁.world.nodes, holdings := st₁.world.holdings }) :
    Installs vm [] st st₁ := by
  obtain ⟨g, w⟩ := st
  obtain ⟨g₁, w₁⟩ := st₁
  obtain rfl : g₁ = g := hgraph
  refine ⟨?_, rfl, fun _ ↦ rfl, fun _ ↦ List.Subset.refl _, rfl, rfl, rfl, Nat.le_refl _,
    fun _ _ ↦ rfl, fun e h h' ↦ absurd h' (Nat.not_lt.mpr h), ?_, ?_, ?_, ?_,
    fun _ _ he ↦ .inl he, List.nodup_nil⟩
  · rw [effectBindings, List.map_nil, Ledger.modify_registerAll_nil]
    exact hworld
  all_goals exact fun _ hh ↦ absurd hh List.not_mem_nil

theorem trans (h : Installs vm hs st st₁) (h' : Installs vm ks st₁ st₂) :
    Installs vm (hs ++ ks) st st₂ where
  world := by
    have hworld := h'.world
    rw [h.viewModel_eq, h.world] at hworld
    rw [effectBindings, List.map_append, ← Ledger.modify_registerAll_append]
    exact hworld
  signals := h'.signals.trans h.signals
  value s := (h'.value s).trans (h.value s)
  subscribers s := List.Subset.trans (h.subscribers s) (h'.subscribers s)
  queue := h'.queue.trans h.queue
  current := h'.current.trans h.current
  flushing := h'.flushing.trans h.flushing
  size := Nat.le_trans h.size h'.size
  old e he := (h'.old e (Nat.lt_of_lt_of_le he h.size)).trans (h.old e he)
  new e hge hlt := by
    rw [List.map_append, List.mem_append]
    by_cases hlt₁ : e.index < st₁.graph.effects.size
    · exact .inl (h.new e hge hlt₁)
    · exact .inr (h'.new e (Nat.not_lt.mp hlt₁) hlt)
  range x hx := by
    rcases List.mem_append.mp hx with hx | hx
    · obtain ⟨hge, hlt⟩ := h.range x hx
      exact ⟨hge, Nat.lt_of_lt_of_le hlt h'.size⟩
    · obtain ⟨hge, hlt⟩ := h'.range x hx
      exact ⟨Nat.le_trans h.size hge, hlt⟩
  effect x hx := by
    rcases List.mem_append.mp hx with hx | hx
    · rw [h'.old x.1 (h.range x hx).2, h.effect x hx]
    · exact h'.effect x hx
  vm_eq x hx := by
    rcases List.mem_append.mp hx with hx | hx
    · exact h.vm_eq x hx
    · exact h'.vm_eq x hx
  subscribed x hx s hs hlt := by
    rcases List.mem_append.mp hx with hx | hx
    · exact h'.subscribers s (h.subscribed x hx s hs hlt)
    · rw [← h.signalsOf] at hs
      exact h'.subscribed x hx s hs (h.signals.symm ▸ hlt)
  readers s e he := by
    rcases h'.readers s e he with he | ⟨x, hx, he, hs⟩ | he
    · rcases h.readers s e he with he | ⟨x, hx, he, hs⟩ | he
      · exact .inl he
      · exact .inr (.inl ⟨x, List.mem_append_left _ hx, he, hs⟩)
      · exact .inr (.inr he)
    · exact .inr (.inl ⟨x, List.mem_append_right _ hx, he, h.signalsOf vm _ ▸ hs⟩)
    · exact .inr (.inr (h.current ▸ he))
  nodup := by
    -- The second effects came after the first.
    rw [List.map_append, List.nodup_append']
    refine ⟨h.nodup, h'.nodup, fun e he he' ↦ ?_⟩
    obtain ⟨x, hx, rfl⟩ := List.mem_map.mp he
    obtain ⟨y, hy, hxy⟩ := List.mem_map.mp he'
    exact absurd (h.range x hx).2 (Nat.not_lt.mpr (hxy ▸ (h'.range y hy).1))

theorem of_trans_nil (h : Installs vm [] st st₁) (h' : Installs vm hs st₁ st₂) :
    Installs vm hs st st₂ := h.trans h'

theorem trans_nil (h : Installs vm hs st st₁) (h' : Installs vm [] st₁ st₂) :
    Installs vm hs st st₂ := List.append_nil hs ▸ h.trans h'

/-- Reading fields installs nothing. -/
theorem trackAll (vm : ViewModelId) (st : LiveState C H) (ss : List SignalId) :
    Installs vm [] st (st.trackAll ss) := by
  have hgains := Graph.Gains.foldl_track st.graph ss
  refine ⟨?_, hgains.signals, hgains.value, hgains.subscribers, hgains.queue, hgains.current,
    hgains.flushing, Nat.le_of_eq hgains.size.symm, fun e _ ↦ hgains.effect e, fun e h h' ↦ ?_,
    ?_, ?_, ?_, ?_, fun s e he ↦ ?_, List.nodup_nil⟩
  · rw [effectBindings, List.map_nil, Ledger.modify_registerAll_nil]
    rfl
  · exact absurd (hgains.size ▸ h') (Nat.not_lt.mpr h)
  on_goal 5 => exact (Graph.of_mem_subscribers_foldl_track he).imp_right fun h ↦ .inr h.1
  all_goals exact fun _ hh ↦ absurd hh List.not_mem_nil

/-- The first run of a new effect, and its entry in the ledger, install it. -/
theorem launch (st : LiveState C H) (u : Upkeep) (hgone : (st.world.viewModel u.vm).gone = false) :
    Installs u.vm [((st.graph.newEffect (u.routine : Routine C)).1, u)] st
      ((st.launch u).register u.vm (.effect (st.graph.newEffect (u.routine : Routine C)).1)) := by
  obtain ⟨e, he⟩ : ∃ e, e = (st.graph.newEffect (u.routine : Routine C)).1 := ⟨_, rfl⟩
  rw [← he]
  obtain ⟨st₁, hst₁⟩ : ∃ st₁, st₁ = (st.launch u).register u.vm (.effect e) := ⟨_, rfl⟩
  have hgraph : st₁.graph = (st.launch u).graph := hst₁ ▸ rfl
  have hgains := gains_launch st u
  have heffect (e' : EffectId) := st.graph.effect_newEffect (u.routine : Routine C) e'
  rw [← hgraph] at hgains
  rw [← he] at heffect
  have hsize : st₁.graph.effects.size = st.graph.effects.size + 1 :=
    hgains.size.trans (Graph.size_newEffect ..)
  have hindex : e.index = st.graph.effects.size := he ▸ rfl
  rw [← hst₁]
  refine ⟨?_, hgains.signals, hgains.value, hgains.subscribers, hgains.queue, hgains.current,
    hgains.flushing, hsize ▸ Nat.le_succ _, fun e' he' ↦ ?_, fun e' h h' ↦ ?_, ?_, ?_, ?_, ?_,
    fun s e' he' ↦ ?_, List.nodup_singleton _⟩
  · rw [hst₁, register, world_launch, if_neg (Bool.eq_false_iff.mp hgone)]
    rfl
  · have hne : e' ≠ e := fun hc ↦ Nat.ne_of_lt he' ((congrArg EffectId.index hc).trans hindex)
    rw [hgains.effect, heffect, if_neg hne]
  · have he' : e'.index = e.index := by omega
    exact List.mem_singleton.mpr (congrArg EffectId.mk he')
  on_goal 5 =>
    rw [hgraph] at he'
    rcases State.of_mem_subscribers_rerun he' with he' | ⟨he', hs⟩
    · exact .inl he'
    · exact .inr (.inl ⟨_, List.mem_singleton_self _, he.trans he'.symm, hs⟩)
  all_goals
    intro h hh
    obtain rfl := List.mem_singleton.mp hh
  · exact ⟨Nat.le_of_eq hindex.symm, hsize ▸ hindex ▸ Nat.lt_succ_self _⟩
  · rw [hgains.effect, heffect, if_pos rfl]
  · rfl
  · intro s hs hlt
    let st₀ : LiveState C H := st.withGraph (st.graph.newEffect u.routine).2
    have hgone : (st₀.world.viewModel u.vm).gone = false := hgone
    rw [hgraph, he]
    exact mem_subscribers_rerun hgone hs hlt _

end Installs

end State

/-! ## Applying directives -/

namespace Client

variable (client : Client C H) (fuel limit : Nat) {scope : Scope} {n : NodeId}

/-- Applying a directive that keeps something up to date clears its attribute, installs its effect
and puts the current value in its place. -/
theorem links_apply {a : Application C} {u : Upkeep} (hkeeps : a.Keeps scope.vm n u)
    (hvm : u.vm = scope.vm) (st : LiveState C H)
    (hgone : (st.world.viewModel scope.vm).gone = false) :
    ∃ st' e, (client.meaning.runner (fuel + 1)).Links limit (a.apply scope n) st () st' ∧
      st.Installs scope.vm [(e, u)] st' ∧
      st'.world.nodes = u.put (u.value (st.fieldValue scope.vm))
        (st.world.nodes.modify n fun node ↦ { node with attrs := a.clear node.attrs }) := by
  -- Whether or not an attribute is removed first, the binding is entered in the same way.
  have henter (st₁ : LiveState C H) (hinstalls : st.Installs scope.vm [] st₁) :
      ∃ st' e, (client.meaning.runner (fuel + 1)).Links limit (a.enter scope n) st₁ () st' ∧
        st.Installs scope.vm [(e, u)] st' ∧
        st'.world.nodes = u.put (u.value (st.fieldValue scope.vm)) st₁.world.nodes := by
    have hgone₁ : (st₁.world.viewModel u.vm).gone = false := by
      rw [hvm, hinstalls.viewModel_eq]
      exact hgone
    have hlaunch := State.Installs.launch st₁ u hgone₁
    rw [hvm] at hlaunch
    have hyields := client.yields_bind fuel limit hkeeps st₁
    refine ⟨(st₁.launch u).register scope.vm _, _,
      Runner.Links.bind_live hyields (Runner.Links.live (Runner.Yields.change _ _)),
      hinstalls.of_trans_nil hlaunch, ?_⟩
    change (st₁.launch u).world.nodes = _
    rw [State.world_launch, if_neg (Bool.eq_false_iff.mp hgone₁), hvm, hinstalls.fieldValue]
    rfl
  have hkept (hclear : ∀ attrs, a.clear attrs = attrs) :
      (st.world.nodes.modify n fun node ↦ { node with attrs := a.clear node.attrs }) =
        st.world.nodes :=
    NodeStore.modify_of_eq (fun node ↦ by rw [hclear]) _ _
  cases hsource : a.descriptor.sourceAttr with
  | none =>
    rw [Application.apply_of_none scope n hsource,
      hkept fun attrs ↦ by rw [Application.clear, hsource]]
    exact henter st (.of_world scope.vm rfl rfl)
  | some attr =>
    cases hretain : a.directive.retain with
    | true =>
      rw [Application.apply_of_retain scope n hretain,
        hkept fun attrs ↦ by rw [Application.clear, hsource]; exact if_pos hretain]
      exact henter st (.of_world scope.vm rfl rfl)
    | false =>
      have hclear (attrs : Attributes) : a.clear attrs = attrs.remove attr := by
        rw [Application.clear, hsource]
        exact if_neg (Bool.eq_false_iff.mp hretain)
      rw [Application.apply_of_some scope n hsource hretain]
      simp only [hclear]
      obtain ⟨st', e, hlinks, hinstalls, hnodes⟩ := henter
        (st.withWorld (st.world.modifyNodes fun s ↦ s.removeAttribute n attr))
        (.of_world scope.vm rfl rfl)
      exact ⟨st', e, Runner.Links.bind_live (Runner.Yields.edit _ st) hlinks, hinstalls, hnodes⟩

/-- Applying the directives of an element installs what its attributes ask for, and renders them. -/
theorem links_applyAll {c : Compiler C} (hc : c.registry = .builtin) {attrs : Attributes}
    (hattrs : ∀ x ∈ attrs, c.Renderable x.1 x.2) (st : LiveState C H)
    (hgone : (st.world.viewModel scope.vm).gone = false) :
    ∃ (st' : LiveState C H) (own : Touches), (client.meaning.runner (fuel + 1)).Links limit
        (Application.applyAll scope n (c.applications attrs)) st () st' ∧
      st.Installs scope.vm (own.map Prod.snd) st' ∧
      own.map (fun x ↦ (x.1, x.2.2)) = c.upkeeps scope.vm n attrs ∧
      (∀ x ∈ own, x.2.2.node = n ∧ ∀ kind, x.2.2.KeepsShape kind) ∧
      st'.world.nodes = st.world.nodes.modify n fun node ↦ { node with
        attrs := (c.upkeeps scope.vm n attrs).foldl
          (fun done x ↦ x.2.workOff x.1 (x.2.value (st.fieldValue scope.vm)) done)
          node.attrs } := by
  induction attrs generalizing st with
  | nil =>
    refine ⟨st, [], Runner.Links.done () st, .of_world scope.vm rfl rfl, rfl,
      fun _ hx ↦ absurd hx List.not_mem_nil, ?_⟩
    exact (NodeStore.modify_of_eq (fun _ ↦ rfl) _ _).symm
  | cons x attrs ih =>
    obtain ⟨attr, value⟩ := x
    obtain ⟨hx, hrest⟩ := List.forall_mem_cons.mp hattrs
    rw [Compiler.applications_cons, Compiler.upkeeps_cons]
    rcases hx.resolve? hc scope.vm n with ⟨hnone, hupkeep⟩ | ⟨a, u, hsome, hupkeep, hworks⟩
    · rw [hnone, hupkeep]
      exact ih hrest st hgone
    · rw [hsome, hupkeep]
      obtain ⟨st₁, e, hlinks, hinstalls, hnodes⟩ :=
        client.links_apply fuel limit hworks.keeps hworks.vm st hgone
      obtain ⟨st₂, own, hlinks', hinstalls', hown, hplace, hnodes'⟩ :=
        ih hrest st₁ (hinstalls.viewModel_eq _ ▸ hgone)
      refine ⟨st₂, (attr, e, u) :: own, hlinks.bind hlinks', hinstalls.trans hinstalls',
        congrArg (List.cons (attr, u)) hown,
        List.forall_mem_cons.mpr ⟨⟨hworks.node, hworks.shape⟩, hplace⟩, ?_⟩
      rw [hnodes', hnodes, hworks.put, NodeStore.modify_modify, NodeStore.modify_modify,
        hinstalls.fieldValue]
      refine congrArg (st.world.nodes.modify n) (funext fun node ↦ ?_)
      simp only [Function.comp_apply, Option.map_some, Option.toList_some, List.singleton_append,
        List.foldl_cons, hworks.write]

end Client

end LiveMarkup
