import LiveMarkup.Proofs.Live.Triples
import LiveMarkup.Proofs.Live.Turns
import LiveMarkup.Proofs.Live.Upkeep
import LiveMarkup.Proofs.Node.Linked

/-!
# Work on new nodes

A directive keeps to its node if binding it, and disposing the binding that it makes, changes at
most that node and what is below it, and neither a ledger nor anything else that there is
(`Behaviour.KeepsTo`). The two directives of this library do. If all directives of a program do, and
the program is carried out on nodes that are new, then all old nodes stay as they were, and nothing
else changes but that bindings are entered into the ledger of one view-model. An execution answers
these bindings, or disposes them one by one and removes them again (`World.Builds.run_execute`).
-/

namespace LiveMarkup

variable {C H α : Type}

/-- Whether a node is another one or stands below it. -/
inductive NodeStore.Below (s : NodeStore) (n : NodeId) : NodeId → Prop where
  | self : s.Below n n
  | child {m c : NodeId} (below : s.Below n m) (mem : c ∈ (s.get m).children) : s.Below n c

theorem NodeStore.Extends.new_below {s₀ s : NodeStore} {n m : NodeId} (h : s₀.Extends s)
    (hn : s₀.size ≤ n.index) (hm : s.Below n m) : s₀.size ≤ m.index := by
  induction hm with
  | self => exact hn
  | child _ hmem ih => exact h.new_child ih hmem

/-- The tree below an old node is as it was. -/
theorem NodeStore.Extends.treeTo {s₀ s : NodeStore} (h : s₀.Extends s) (depth : Nat) {n : NodeId}
    (hn : n.index < s₀.size) : s.treeTo depth n = s₀.treeTo depth n := by
  induction depth generalizing n with
  | zero => rw [NodeStore.treeTo, NodeStore.treeTo, h.get hn]
  | succ depth ih =>
    have hchildren : (s₀.get n).children.map (s.treeTo depth) =
        (s₀.get n).children.map (s₀.treeTo depth) :=
      List.map_congr_left fun c hc ↦ ih (h.start.child_lt hc)
    rw [NodeStore.treeTo, NodeStore.treeTo, h.get hn, hchildren]

/-- What of a view-model does not depend on its fields. -/
def ViewModel.standing (vm : ViewModel) : LedgerId × LifecycleId × Bool :=
  (vm.ledger, vm.lifecycle, vm.disposed)

namespace World

/-- Whether everything there was is as it was, nodes, ledgers and fields apart. There may be more.
-/
structure Retains (w w' : World C H) : Prop where
  viewModels : w.viewModels.toList.map ViewModel.standing <+:
    w'.viewModels.toList.map ViewModel.standing
  lifecycles : w.lifecycles.toList <+: w'.lifecycles.toList
  tables : w.tables.toList <+: w'.tables.toList
  components : w.components.toList <+: w'.components.toList

/-- Whether a node and what is below it has changed at most, fields apart. There may be more. -/
structure Touches (n : NodeId) (w w' : World C H) : Prop where
  retains : w.Retains w'
  ledgers : w.ledgers.toList <+: w'.ledgers.toList
  linked : w'.nodes.Linked
  kinds : w.nodes.Agrees Node.kind [] w'.nodes
  elsewhere : ∀ m, m.index < w.nodes.size → ¬ w.nodes.Below n m →
    w'.nodes.get m = w.nodes.get m

variable {w w' w'' : World C H} {vm : ViewModelId}

namespace Retains

theorem refl (w : World C H) : w.Retains w :=
  ⟨List.prefix_refl _, List.prefix_refl _, List.prefix_refl _, List.prefix_refl _⟩

theorem of_eq (hvm : w'.viewModels = w.viewModels) (hlifecycles : w'.lifecycles = w.lifecycles)
    (htables : w'.tables = w.tables) (hcomponents : w'.components = w.components) :
    w.Retains w' := by
  constructor
  · exact hvm ▸ List.prefix_refl _
  · exact hlifecycles ▸ List.prefix_refl _
  · exact htables ▸ List.prefix_refl _
  · exact hcomponents ▸ List.prefix_refl _

theorem trans (h : w.Retains w') (h' : w'.Retains w'') : w.Retains w'' where
  viewModels := h.viewModels.trans h'.viewModels
  lifecycles := h.lifecycles.trans h'.lifecycles
  tables := h.tables.trans h'.tables
  components := h.components.trans h'.components

theorem size_viewModels (h : w.Retains w') : w.viewModels.size ≤ w'.viewModels.size := by
  have hlength := h.viewModels.length_le
  rwa [List.length_map, List.length_map, Array.length_toList, Array.length_toList] at hlength

theorem standing (h : w.Retains w') (hvm : vm.index < w.viewModels.size) :
    (w'.viewModel vm).standing = (w.viewModel vm).standing := by
  have hlt : vm.index < (w.viewModels.toList.map ViewModel.standing).length := by
    rwa [List.length_map, Array.length_toList]
  have hvm' := Nat.lt_of_lt_of_le hvm h.size_viewModels
  have hget := h.viewModels.getElem hlt
  rw [List.getElem_map, List.getElem_map, Array.getElem_toList, Array.getElem_toList] at hget
  have hold : w.viewModel vm = w.viewModels[vm.index] := (Array.getElem_eq_getD _).symm
  have hnew : w'.viewModel vm = w'.viewModels[vm.index] := (Array.getElem_eq_getD _).symm
  rw [hold, hnew, hget]

theorem ledger (h : w.Retains w') (hvm : vm.index < w.viewModels.size) :
    (w'.viewModel vm).ledger = (w.viewModel vm).ledger := congrArg Prod.fst (h.standing hvm)

end Retains

/-- What is at a place among a part at the beginning. -/
theorem getElem?_of_prefix {xs ys : Array α} (h : xs.toList <+: ys.toList) {i : Nat} {x : α}
    (hx : xs[i]? = some x) : ys[i]? = some x := by
  obtain ⟨rest, hrest⟩ := h
  rw [← Array.getElem?_toList] at hx ⊢
  obtain ⟨hlt, -⟩ := List.getElem?_eq_some_iff.mp hx
  rw [← hrest, List.getElem?_append_left hlt, hx]

namespace Touches

theorem refl {n : NodeId} (hw : w.nodes.Linked) : w.Touches n w :=
  ⟨.refl w, List.prefix_refl _, hw, .refl _ _ _, fun _ _ _ ↦ rfl⟩

theorem nodes {n : NodeId} (h : w.Touches n w') {s₀ : NodeStore} (hs : s₀.Extends w.nodes)
    (hn : s₀.size ≤ n.index) : s₀.Extends w'.nodes where
  start := hs.start
  agrees := by
    refine ⟨Nat.le_trans hs.agrees.size h.kinds.size, fun m hm _ ↦ ?_⟩
    have hnot : ¬ w.nodes.Below n m := fun hbelow ↦
      Nat.not_lt.mpr (hs.new_below hn hbelow) hm
    rw [h.elsewhere m (Nat.lt_of_lt_of_le hm hs.agrees.size) hnot, hs.get hm]
  linked := h.linked

end Touches

/-- Whether entries have been added for a view-model, and all other ledgers are as they were. -/
structure Gathers (vm : ViewModelId) (w w' : World C H) (l l' : Ledger (Binding C))
    (new : List (BindingId × Binding C)) : Prop where
  before : w.ledger? vm = some l
  after : w'.ledger? vm = some l'
  gains : l.Gains l' new []
  others : ∀ (i : Nat) k, i ≠ (w.viewModel vm).ledger.index → w.ledgers[i]? = some k →
    w'.ledgers[i]? = some k

end World

/-- Whether code changes at most a node and what is below it. -/
def Live.KeepsTo (client : Client C H) (n : NodeId) (p : Live C H α) : Prop :=
  ∀ fuel (st : LiveState C H) a st', st.world.nodes.Linked → n.index < st.world.nodes.size →
    client.run fuel p st = some (a, st') → st.world.Touches n st'.world

/-- Whether binding a directive changes at most the node and what is below it, and so does disposing
the binding. -/
def Behaviour.KeepsTo (client : Client C H) : Behaviour C → Prop
  | .text | .attr => True
  | .client code => ∀ scope n d fuel (st : LiveState C H) answer st', st.world.nodes.Linked →
    n.index < st.world.nodes.size →
    client.run fuel (client.bind code scope n d) st = some (answer, st') →
      st.world.Touches n st'.world ∧ ∀ b, answer = .ok b → Live.KeepsTo client n b.dispose

/-- Stopping an effect changes nothing that there is. -/
theorem Live.keepsTo_stop (client : Client C H) (n : NodeId) (e : EffectId) :
    Live.KeepsTo client n (Live.stop e) := by
  intro fuel st a st' hst _ hrun
  obtain ⟨-, rfl⟩ := Prod.mk.inj (Option.some.inj hrun)
  exact .refl hst

/-! ## Building -/

/-- Whether a world has come out of another by work on new nodes, some of which are in hand, and by
entering bindings for a view-model that can be disposed without touching any old node. -/
structure World.Builds (client : Client C H) (vm : ViewModelId) (w : World C H) (s : NodeStore)
    (l : Ledger (Binding C)) (ns : List NodeId) (w' : World C H) : Prop where
  nodes : w.nodes.Extends w'.nodes
  /-- Nodes that were made before the work began have kept their kinds. -/
  kinds : s.Agrees Node.kind [] w'.nodes
  hand : ∀ n ∈ ns, w.nodes.size ≤ n.index ∧ n.index < w'.nodes.size
  retains : w.Retains w'
  gathers : ∃ l' new, w.Gathers vm w' l l' new ∧ ∀ e ∈ new, ∃ n : NodeId,
    w.nodes.size ≤ n.index ∧ n.index < w'.nodes.size ∧ Live.KeepsTo client n e.2.dispose

namespace World.Builds

variable {client : Client C H} {vm : ViewModelId} {w w₁ w₂ : World C H} {s : NodeStore}
  {l : Ledger (Binding C)} {ns ms : List NodeId} {n : NodeId}

/-- Nothing has been built. -/
theorem start (hw : w.nodes.Linked) (hl : w.ledger? vm = some l) :
    w.Builds client vm w.nodes l [] w where
  nodes := .refl hw
  kinds := .refl _ _ _
  hand _ hn := absurd hn List.not_mem_nil
  retains := .refl w
  gathers := ⟨l, [], ⟨hl, hl, .refl l, fun _ _ _ hk ↦ hk⟩, fun _ he ↦ absurd he List.not_mem_nil⟩

theorem mono (h : w.Builds client vm s l ns w₁) (hms : ms ⊆ ns) : w.Builds client vm s l ms w₁ :=
  ⟨h.nodes, h.kinds, fun n hn ↦ h.hand n (hms hn), h.retains, h.gathers⟩

theorem of_nodes (h : w.Builds client vm s l ns w₁) {s' : NodeStore} (hs' : w.nodes.Extends s')
    (hkinds : w₁.nodes.Agrees Node.kind [] s') :
    w.Builds client vm s l ns { w₁ with nodes := s' } where
  nodes := hs'
  kinds := h.kinds.trans hkinds
  hand n hn := (h.hand n hn).imp_right fun hlt ↦ Nat.lt_of_lt_of_le hlt hkinds.size
  retains := h.retains.trans (.of_eq rfl rfl rfl rfl)
  gathers := by
    obtain ⟨l', new, hgathers, hnew⟩ := h.gathers
    refine ⟨l', new, ⟨hgathers.before, hgathers.after, hgathers.gains, hgathers.others⟩,
      fun e he ↦ ?_⟩
    obtain ⟨n, hn, hlt, hkeeps⟩ := hnew e he
    exact ⟨n, hn, Nat.lt_of_lt_of_le hlt hkinds.size, hkeeps⟩

theorem touches (h : w.Builds client vm s l ns w₁) (hvm : vm.index < w.viewModels.size)
    (hn : w.nodes.size ≤ n.index) (ht : w₁.Touches n w₂) : w.Builds client vm s l ns w₂ where
  nodes := ht.nodes h.nodes hn
  kinds := h.kinds.trans ht.kinds
  hand m hm := (h.hand m hm).imp_right fun hlt ↦ Nat.lt_of_lt_of_le hlt ht.kinds.size
  retains := h.retains.trans ht.retains
  gathers := by
    obtain ⟨l', new, hgathers, hnew⟩ := h.gathers
    have hvm₁ := Nat.lt_of_lt_of_le hvm h.retains.size_viewModels
    have hafter : w₂.ledger? vm = some l' := by
      rw [World.ledger?, ht.retains.ledger hvm₁]
      exact getElem?_of_prefix ht.ledgers hgathers.after
    refine ⟨l', new, ⟨hgathers.before, hafter, hgathers.gains, fun i k hi hk ↦ ?_⟩, fun e he ↦ ?_⟩
    · exact getElem?_of_prefix ht.ledgers (hgathers.others i k hi hk)
    · obtain ⟨m, hm, hlt, hkeeps⟩ := hnew e he
      exact ⟨m, hm, Nat.lt_of_lt_of_le hlt ht.kinds.size, hkeeps⟩

/-- A binding is entered that can be disposed without touching any old node. -/
theorem register (h : w.Builds client vm s l ns w₁) (hvm : vm.index < w.viewModels.size)
    (hn : n ∈ ns) {b : Binding C} (hb : Live.KeepsTo client n b.dispose) :
    w.Builds client vm s l ns (w₁.register vm b) where
  nodes := h.nodes
  kinds := h.kinds
  hand := h.hand
  retains := h.retains.trans (.of_eq rfl rfl rfl rfl)
  gathers := by
    obtain ⟨l', new, hgathers, hnew⟩ := h.gathers
    refine ⟨(l'.register b).2, new ++ [(l'.watermark, b)], ?_, fun e he ↦ ?_⟩
    · refine ⟨hgathers.before, ledger?_modifyLedger_self hgathers.after _,
        hgathers.gains.trans (.register l' b), fun i k hi hk ↦ ?_⟩
      have hne : (w₁.viewModel vm).ledger.index ≠ i := by
        rw [h.retains.ledger hvm]
        exact Ne.symm hi
      have hget : (w₁.register vm b).ledgers[i]? = w₁.ledgers[i]? :=
        (Array.getElem?_modify ..).trans (if_neg hne)
      rw [hget]
      exact hgathers.others i k hi hk
    · rcases List.mem_append.mp he with he | he
      · exact hnew e he
      · obtain rfl := List.mem_singleton.mp he
        exact ⟨n, (h.hand n hn).1, (h.hand n hn).2, hb⟩

/-- What is done to the nodes in hand. -/
theorem modify (h : w.Builds client vm s l ns w₁) (hn : n ∈ ns) {f : Node → Node}
    (hf : ∀ node, (f node).children = node.children ∧ (f node).parent = node.parent ∧
      (f node).kind = node.kind) :
    w.Builds client vm s l ns (w₁.modifyNodes fun nodes ↦ nodes.modify n f) :=
  h.of_nodes (h.nodes.modify (h.hand n hn).1 fun node ↦ ⟨(hf node).1, (hf node).2.1⟩)
    (w₁.nodes.agrees_modify_of n fun node ↦ (hf node).2.2)

theorem setTextContent (h : w.Builds client vm s l ns w₁) (hn : n ∈ ns) (text : String) :
    w.Builds client vm s l ns (w₁.modifyNodes fun nodes ↦ nodes.setTextContent n text) := by
  obtain ⟨hnew, hlt⟩ := h.hand n hn
  exact h.of_nodes (h.nodes.setTextContent hnew hlt text)
    (h.nodes.linked.kinds_setTextContent hlt text)

theorem plant (h : w.Builds client vm s l ns w₁) (t : Tree α) :
    w.Builds client vm s l ((w₁.nodes.plant t).1 :: ns)
      { w₁ with nodes := (w₁.nodes.plant t).2 } := by
  obtain ⟨hfst, hsize, hplant⟩ := h.nodes.plant t
  obtain ⟨-, -, hself⟩ := (NodeStore.Extends.refl h.nodes.linked).plant t
  have hrest := h.of_nodes hplant (hself.agrees.of_id Node.kind)
  refine ⟨hrest.nodes, hrest.kinds, List.forall_mem_cons.mpr ⟨?_, hrest.hand⟩, hrest.retains,
    hrest.gathers⟩
  rw [hfst]
  exact ⟨h.nodes.agrees.size, hsize⟩

theorem children (h : w.Builds client vm s l ns w₁) (hn : n ∈ ns) :
    w.Builds client vm s l ((w₁.nodes.get n).children ++ ns) w₁ := by
  refine ⟨h.nodes, h.kinds, fun c hc ↦ ?_, h.retains, h.gathers⟩
  rcases List.mem_append.mp hc with hc | hc
  · exact ⟨h.nodes.new_child (h.hand n hn).1 hc, h.nodes.linked.child_lt hc⟩
  · exact h.hand c hc

theorem replace (h : w.Builds client vm s l ns w₁) (hn : n ∈ ns) {r : NodeId} (hr : r ∈ ns) :
    w.Builds client vm s l ns { w₁ with nodes := (w₁.nodes.replace n r).2 } :=
  h.of_nodes (h.nodes.replace (h.hand n hn).1 (h.hand r hr).1) (h.nodes.linked.kinds_replace n r)

theorem holdings (h : w.Builds client vm s l ns w₁) (hs : List (List (Held C))) :
    w.Builds client vm s l ns { w₁ with holdings := hs } := by
  have hsame := h.of_nodes h.nodes (.refl _ _ _)
  exact ⟨hsame.nodes, hsame.kinds, hsame.hand, hsame.retains.trans (.of_eq rfl rfl rfl rfl),
    hsame.gathers.imp fun l' ⟨new, hgathers, hnew⟩ ↦
      ⟨new, ⟨hgathers.before, hgathers.after, hgathers.gains, hgathers.others⟩, hnew⟩⟩

/-- A copy of a template comes into hand. -/
theorem copied (hw : w.nodes.Linked) (hl : w.ledger? vm = some l) (t : NodeId) :
    w.Builds client vm (w.nodes.deepClone t).2 l [(w.nodes.deepClone t).1] (w.copied t) := by
  have hcopy : w.Builds client vm w.nodes l [(w.nodes.deepClone t).1] (w.copied t) :=
    ((start hw hl).plant (w.nodes.tree t)).holdings _
  exact ⟨hcopy.nodes, .refl _ _ _, hcopy.hand, hcopy.retains, hcopy.gathers⟩

end World.Builds

/-! ## Directives -/

theorem Descriptor.at_attributeRoutine {d : Descriptor} {vm : ViewModelId} {n : NodeId}
    {b : Routine C} (h : d.attributeRoutine vm n = .ok b) : b.At n := by
  obtain ⟨name, text, rfl | rfl⟩ := attributeRoutine_eq_ok h
  · rfl
  · rfl

namespace Live.Triples

variable {client : Client C H} {vm : ViewModelId} {w : World C H} {s : NodeStore}
  {l : Ledger (Binding C)} {ns : List NodeId} {n : NodeId} {fuel : Nat}

/-- The body of an effect of this library writes to its node only. -/
theorem Keeps.scriptAt {L : Live.Triples C H} {I : World C H → Prop} {b : Routine C} (hb : b.At n)
    (htext : ∀ text, L.Keeps I (Live.edit fun nodes ↦ nodes.setTextContent n text))
    (hattr : ∀ name value, L.Keeps I (Live.edit fun nodes ↦ nodes.setAttribute n name value)) :
    L.Keeps I b.script := by
  refine .script (fun m text hm ↦ ?_) (fun m name value hm ↦ ?_) fun code hcode ↦ ?_
  · exact hb.unique hm ▸ htext text
  · exact hb.unique hm ▸ hattr name value
  · subst hcode
    exact hb.elim

/-- A directive of this library is bound by making an effect. -/
theorem holds_bind_builtin {I : World C H → Prop} {a : Application C} {scope : Scope}
    (ha : a.directive.behaviour.IsBuiltin)
    (hscript : ∀ fuel (b : Routine C), b.At n →
      (runs (client.meaning.runner fuel) fuel).Keeps I b.script)
    (hregister : ∀ w e, I w → I (w.register scope.vm (.effect e))) :
    (runs (client.meaning.runner fuel) fuel).holds I (a.bind scope n)
      fun answer w ↦ I w ∧ ∀ b, answer = .ok b → I (w.register scope.vm b) := by
  have heffect {b : Routine C} (hb : b.At n) : (runs (client.meaning.runner fuel) fuel).holds I
      (do return .ok (.effect (← Live.effect b)))
      fun answer w ↦ I w ∧ ∀ b, answer = Except.ok (ε := String) b →
        I (w.register scope.vm b) := by
    refine bind _ (runs_effect fun fuel ↦ hscript fuel b hb) fun e ↦ done _ fun w hw ↦ ?_
    refine ⟨hw, fun b hb ↦ ?_⟩
    obtain rfl := Except.ok.inj hb
    exact hregister w e hw
  rw [Application.bind]
  cases hbehaviour : a.directive.behaviour with
  | text => exact heffect rfl
  | attr =>
    cases hroutine : a.descriptor.attributeRoutine scope.vm n with
    | ok routine => exact heffect (Descriptor.at_attributeRoutine hroutine)
    | error reason =>
      refine done _ fun w hw ↦ ⟨hw, fun b hb ↦ ?_⟩
      contradiction
  | client code =>
    rw [hbehaviour] at ha
    exact ha.elim

/-- Binding a directive that keeps to its node. -/
theorem holds_bind (hvm : vm.index < w.viewModels.size) {a : Application C} {scope : Scope}
    (hscope : scope.vm = vm) (ha : a.directive.behaviour.KeepsTo client) (hn : n ∈ ns) :
    (runs (client.meaning.runner fuel) fuel).holds (w.Builds client vm s l ns) (a.bind scope n)
      fun answer w₁ ↦ w.Builds client vm s l ns w₁ ∧
        ∀ b, answer = .ok b → w.Builds client vm s l ns (w₁.register vm b) := by
  subst hscope
  by_cases hbuiltin : a.directive.behaviour.IsBuiltin
  · refine holds_bind_builtin hbuiltin (fun fuel b hb ↦ .scriptAt hb (fun text ↦ ?_) ?_)
      fun w₁ e hw ↦ hw.register hvm hn (Live.keepsTo_stop client n e)
    · exact change _ fun w₁ hw ↦ ⟨trivial, hw.setTextContent hn text⟩
    · intro name value
      exact change _ fun w₁ hw ↦ ⟨trivial, hw.modify hn fun _ ↦ ⟨rfl, rfl, rfl⟩⟩
  · cases hbehaviour : a.directive.behaviour with
    | client code =>
      rw [Application.bind, hbehaviour]
      rw [hbehaviour] at ha
      refine runs_call fun fuel st answer st' hst hrun ↦ ?_
      obtain ⟨hnew, hlt⟩ := hst.hand n hn
      obtain ⟨htouches, hb⟩ := ha scope n _ fuel st answer st' hst.nodes.linked hlt hrun
      have hst' := hst.touches hvm hnew htouches
      exact ⟨hst', fun b h ↦ hst'.register hvm hn (hb b h)⟩
    | _ =>
      rw [hbehaviour] at hbuiltin
      exact absurd trivial hbuiltin

/-- Whatever is done while a program is carried out whose directives keep to their nodes. -/
theorem supports_builds {scope : Scope} (hvm : scope.vm.index < w.viewModels.size) :
    (runs (client.meaning.runner fuel) fuel).Supports scope (w.Builds client scope.vm s l)
      (fun a ↦ a.directive.behaviour.KeepsTo client) fun _ ↦ False where
  mono _ _ _ hms h := h.mono hms
  holdings _ _ hs h := ⟨trivial, h.holdings hs⟩
  removeAttribute _ _ _ _ hn h := ⟨trivial, h.modify hn fun _ ↦ ⟨rfl, rfl, rfl⟩⟩
  setTextContent _ _ _ text hn h := ⟨trivial, h.setTextContent hn text⟩
  plant _ _ t h := ⟨trivial, h.plant t⟩
  children _ _ _ hn h := h.children hn
  replace _ _ _ _ hn hr h := ⟨trivial, h.replace hn hr⟩
  bind _ _ _ ha hn := mono _ (holds_bind hvm rfl ha hn) fun _ _ hw ↦
    ⟨hw.1, fun b hb ↦ ⟨trivial, hw.2 b hb⟩⟩
  client _ _ _ hcode _ := hcode.elim

end Live.Triples

/-! ## Undoing -/

/-- Whether everything that there was is as it was: nodes, and so the trees below them; ledgers, but
for the identities they hand out next; view-models, but for their fields; and lifecycles, mount
tables and components. There may be more. -/
structure World.Undisturbed (w w' : World C H) : Prop where
  nodes : ∀ n, n.index < w.nodes.size → w'.nodes.get n = w.nodes.get n
  trees : ∀ n, n.index < w.nodes.size → ∀ depth, w'.nodes.treeTo depth n = w.nodes.treeTo depth n
  ledgers : ∀ (i : Nat) l, w.ledgers[i]? = some l →
    ∃ l', w'.ledgers[i]? = some l' ∧ l'.entries = l.entries
  retains : w.Retains w'

namespace World

variable {client : Client C H} {vm : ViewModelId} {w w₁ : World C H} {s : NodeStore}
  {l l₁ : Ledger (Binding C)} {ns : List NodeId} {new : List (BindingId × Binding C)}

namespace Undisturbed

theorem refl (w : World C H) : w.Undisturbed w :=
  ⟨fun _ _ ↦ rfl, fun _ _ _ ↦ rfl, fun _ l hl ↦ ⟨l, hl, rfl⟩, .refl w⟩

theorem holdings (h : w.Undisturbed w₁) (hs : List (List (Held C))) :
    w.Undisturbed { w₁ with holdings := hs } :=
  ⟨h.nodes, h.trees, h.ledgers, h.retains.trans (.of_eq rfl rfl rfl rfl)⟩

end Undisturbed

namespace Builds

/-- When the bindings that were entered are removed again, everything is as it was. -/
theorem undo (h : w.Builds client vm s l ns w₁) (hvm : vm.index < w.viewModels.size)
    (hl : l.Sound) (hl₁ : w₁.ledger? vm = some l₁) (hgains : l.Gains l₁ new []) :
    w.Undisturbed (w₁.modifyLedger (w₁.viewModel vm).ledger fun l ↦
      l.remove (new.map Prod.fst)) where
  nodes _ hn := h.nodes.get hn
  trees _ hn depth := h.nodes.treeTo depth hn
  ledgers i k hk := by
    obtain ⟨l', new', hgathers, -⟩ := h.gathers
    have hget : (w₁.modifyLedger (w₁.viewModel vm).ledger fun l ↦
        l.remove (new.map Prod.fst)).ledgers[i]? =
      if (w₁.viewModel vm).ledger.index = i then
        w₁.ledgers[i]?.map fun l ↦ l.remove (new.map Prod.fst) else w₁.ledgers[i]? :=
      Array.getElem?_modify ..
    by_cases hi : (w₁.viewModel vm).ledger.index = i
    · have hold : k = l := by
        rw [← hi, h.retains.ledger hvm] at hk
        exact Option.some.inj (hk.symm.trans hgathers.before)
      have hl₁ : w₁.ledgers[i]? = some l₁ := hi ▸ hl₁
      have hremove := (hgains.remove hl (List.Sublist.refl new)).entries
      rw [Ledger.filter_not_contains_self, List.append_nil] at hremove
      rw [if_pos hi, hl₁] at hget
      exact ⟨_, hget, hremove.trans (hold ▸ rfl)⟩
    · have hne : i ≠ (w.viewModel vm).ledger.index := by
        rw [← h.retains.ledger hvm]
        exact Ne.symm hi
      rw [if_neg hi] at hget
      exact ⟨k, hget.trans (hgathers.others i k hne hk), rfl⟩
  retains := h.retains.trans (.of_eq rfl rfl rfl rfl)

end Builds

end World

/-! ## Executions -/

namespace World.Builds

variable {client : Client C H} {w : World C H} {s : NodeStore} {l : Ledger (Binding C)}
  {ns : List NodeId} {scope : Scope} {program : Option (Program C)} {target : Target} {fuel : Nat}
  {st st' : LiveState C H}

/-- A program whose directives keep to their nodes is carried out on nodes in hand. -/
theorem run_linkIfAny (h : w.Builds client scope.vm s l ns st.world)
    (hvm : scope.vm.index < w.viewModels.size)
    (hprogram : ∀ p, program = some p →
      p.Uses (fun a ↦ a.directive.behaviour.KeepsTo client) fun _ ↦ False)
    (htarget : target.Among ns) {answer : Except LinkError Unit}
    (hrun : client.run fuel (Program.linkIfAny scope target program) st = some (answer, st')) :
    w.Builds client scope.vm s l [] st'.world := by
  cases program with
  | none =>
    obtain ⟨-, rfl⟩ := Prod.mk.inj (Option.some.inj hrun)
    exact h.mono (List.nil_subset _)
  | some p =>
    have hst' := (Live.Triples.supports_builds hvm).link target htarget p (hprogram p rfl)
      st answer st' h hrun
    cases answer with
    | ok u => exact World.Builds.mono hst' (List.nil_subset _)
    | error e => exact hst'

/-- Disposing bindings that keep to new nodes. -/
theorem run_disposeAll {vm : ViewModelId} {bs : List (BindingId × Binding C)}
    {l' : Ledger (Binding C)} (h : w.Builds client vm s l ns st.world)
    (hvm : vm.index < w.viewModels.size) (hl' : st.world.ledger? vm = some l')
    (hbs : ∀ e ∈ bs, ∃ n : NodeId, w.nodes.size ≤ n.index ∧ n.index < st.world.nodes.size ∧
      Live.KeepsTo client n e.2.dispose)
    (hrun : client.run fuel (Disposer.disposeAll bs) st = some ((), st')) :
    w.Builds client vm s l ns st'.world ∧ st'.world.ledger? vm = some l' := by
  induction bs generalizing st with
  | nil =>
    obtain ⟨-, rfl⟩ := Prod.mk.inj (Option.some.inj hrun)
    exact ⟨h, hl'⟩
  | cons e bs ih =>
    obtain ⟨⟨⟩, st₁, hdispose, hrest⟩ := Meaning.exists_of_run_bind hrun
    obtain ⟨⟨n, hnew, hlt, hkeeps⟩, hbs⟩ := List.forall_mem_cons.mp hbs
    have htouches := hkeeps fuel st () st₁ h.nodes.linked hlt hdispose
    have hst₁ := h.touches hvm hnew htouches
    refine ih hst₁ ?_ (fun e' he' ↦ ?_) hrest
    · rw [ledger?, htouches.retains.ledger (Nat.lt_of_lt_of_le hvm h.retains.size_viewModels)]
      exact getElem?_of_prefix htouches.ledgers hl'
    · obtain ⟨m, hm, hm', hkeeps'⟩ := hbs e' he'
      exact ⟨m, hm, Nat.lt_of_lt_of_le hm' htouches.kinds.size, hkeeps'⟩

/-- An execution whose directives keep to their nodes answers what has been entered, or disposes it
in order and removes it, and then everything is as it was before. -/
theorem run_execute (h : w.Builds client scope.vm s l ns st.world)
    (hvm : scope.vm.index < w.viewModels.size) (hl : l.Sound)
    (hst : st.world.ledger? scope.vm = some l)
    (hprogram : ∀ p, program = some p →
      p.Uses (fun a ↦ a.directive.behaviour.KeepsTo client) fun _ ↦ False)
    (htarget : target.Among ns) {answer : Except LinkError (Disposer C)}
    (hrun : client.run fuel (Live.execute program scope target) st = some (answer, st')) :
    ∃ linked st₁ l₁ new,
      client.run fuel (Program.linkIfAny scope target program) st = some (linked, st₁) ∧
      w.Builds client scope.vm s l [] st₁.world ∧ w.Gathers scope.vm st₁.world l l₁ new ∧
      (linked = .ok () ∧ answer = .ok ⟨scope.vm, new⟩ ∧ st' = st₁ ∨
        ∃ e, linked = .error e ∧ answer = .error e ∧
          client.run fuel (Disposer.dispose ⟨scope.vm, new⟩) st₁ = some ((), st') ∧
          st'.world.ledger? scope.vm = some (l₁.remove (new.map Prod.fst)) ∧
          w.Undisturbed st'.world) := by
  obtain ⟨linked, st₁, hlink, hend⟩ := Client.run_execute hrun
  have hbuilds := h.run_linkIfAny hvm hprogram htarget hlink
  obtain ⟨l₁, new, hgathers, hnew⟩ := hbuilds.gathers
  -- The mark was taken before anything was entered.
  have howned : (st₁.world.ledgerOf scope.vm).since (st.world.ledgerOf scope.vm).watermark =
      new := by
    rw [ledgerOf_of_ledger? hgathers.after, ledgerOf_of_ledger? hst]
    exact hgathers.gains.since_eq hl
  rw [howned] at hend
  refine ⟨linked, st₁, l₁, new, hlink, hbuilds, hgathers, hend.imp_right ?_⟩
  rintro ⟨e, rfl, rfl, hdispose⟩
  obtain ⟨st₂, hall, rfl⟩ := Client.run_dispose hdispose
  have hheld : w.Builds client scope.vm s l [] (st₁.withHoldings
      (Disposer.held ⟨scope.vm, new⟩ :: st₁.world.holdings)).world := hbuilds.holdings _
  obtain ⟨hdisposed, hl₁⟩ := hheld.run_disposeAll hvm hgathers.after hnew hall
  have hundone := (hdisposed.holdings st₂.world.holdings.tail).undo hvm hl hl₁ hgathers.gains
  exact ⟨e, rfl, rfl, hdispose, ledger?_modifyLedger_self hl₁ _, hundone⟩

end World.Builds

end LiveMarkup
