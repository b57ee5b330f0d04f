import LiveMarkup.Proofs.Live.Aside
import LiveMarkup.Proofs.Live.Hooks

/-!
# Components that come and go

What mounting and unmounting components comes to, with the directives of this library, is said in
terms of who is mounted where (`Client.run_mount_cases`, `Client.run_unmount_cases`). Hooks run in
between; they have to leave alone what this is about (`Client.Harmless`).

Carrying out a program with these directives enters nothing but effects, and otherwise works on new
nodes only. So a mount that fails can undo all that it has done, as effects are stopped without a
trace in the world (`Client.run_disposeAll_effects`).
-/

namespace LiveMarkup

variable {C H : Type}

/-! ## Directives of this library -/

/-- Whether a world has come out of another by work on nodes and by entering effects for a
view-model. -/
structure World.Equips (vm : ViewModelId) (l : Ledger (Binding C)) (w w' : World C H) : Prop where
  viewModels : w'.viewModels = w.viewModels
  lifecycles : w'.lifecycles = w.lifecycles
  tables : w'.tables = w.tables
  components : w'.components = w.components
  effects : ∃ l', w'.ledger? vm = some l' ∧
    ∀ e ∈ l'.entries, e ∈ l.entries ∨ ∃ i, e.2 = .effect i

namespace World.Equips

variable {vm : ViewModelId} {l : Ledger (Binding C)} {w w₁ : World C H}

theorem start (hl : w.ledger? vm = some l) : w.Equips vm l w :=
  ⟨rfl, rfl, rfl, rfl, l, hl, fun _ he ↦ .inl he⟩

theorem of_nodes (h : w.Equips vm l w₁) (nodes : NodeStore) (holdings : List (List (Held C))) :
    w.Equips vm l { w₁ with nodes, holdings } :=
  ⟨h.viewModels, h.lifecycles, h.tables, h.components, h.effects⟩

theorem register (h : w.Equips vm l w₁) (i : EffectId) :
    w.Equips vm l (w₁.register vm (.effect i)) := by
  obtain ⟨l', hl', heffects⟩ := h.effects
  refine ⟨h.viewModels, h.lifecycles, h.tables, h.components, (l'.register (.effect i)).2,
    ledger?_modifyLedger_self hl' _, fun e he ↦ ?_⟩
  rcases List.mem_append.mp he with he | he
  · exact heffects e he
  · exact .inr ⟨i, congrArg Prod.snd (List.mem_singleton.mp he)⟩

theorem viewModel (h : w.Equips vm l w₁) (vm' : ViewModelId) :
    w₁.viewModel vm' = w.viewModel vm' := by
  rw [World.viewModel, World.viewModel, h.viewModels]

theorem component (h : w.Equips vm l w₁) (c : ComponentId) : w₁.component c = w.component c := by
  rw [World.component, World.component, h.components]

end World.Equips

namespace Live.Triples

variable {client : Client C H} {fuel : Nat} {scope : Scope} {w : World C H}
  {l : Ledger (Binding C)}

/-- Whatever is done while a program is carried out with the directives of this library. -/
theorem supports_equips : (runs (client.meaning.runner fuel) fuel).Supports scope
    (fun _ ↦ w.Equips scope.vm l) (fun a ↦ a.directive.behaviour.IsBuiltin) fun _ ↦ False where
  mono _ _ _ _ h := h
  holdings _ _ _ h := ⟨trivial, h.of_nodes _ _⟩
  removeAttribute _ _ _ _ _ h := ⟨trivial, h.of_nodes _ _⟩
  setTextContent _ _ _ _ _ h := ⟨trivial, h.of_nodes _ _⟩
  plant _ _ _ h := ⟨trivial, h.of_nodes _ _⟩
  children _ _ _ _ h := h
  replace _ _ _ _ _ _ h := ⟨trivial, h.of_nodes _ _⟩
  bind _ a n ha _ := by
    refine mono _ (holds_bind_builtin ha (fun fuel b hb ↦ .scriptAt hb (fun text ↦ ?_) ?_)
      fun w₁ i h ↦ h.register i) fun _ _ hw ↦ ⟨hw.1, fun b hb ↦ ⟨trivial, hw.2 b hb⟩⟩
    · exact change _ fun w₁ h ↦ ⟨trivial, h.of_nodes _ _⟩
    · intro name value
      exact change _ fun w₁ h ↦ ⟨trivial, h.of_nodes _ _⟩
  client _ _ _ hcode _ := hcode.elim

end Live.Triples

namespace Client

variable {client : Client C H} {K : C → Prop} {V : ViewModelId → Prop} {fuel : Nat}
  {st st' : LiveState C H} {t : TableId} {c : ComponentId} {n : NodeId}

/-- Stopping effects leaves the world as it is. -/
theorem run_disposeAll_effects {bs : List (BindingId × Binding C)}
    (hbs : ∀ e ∈ bs, ∃ i, e.2 = .effect i)
    (hrun : client.run fuel (Disposer.disposeAll bs) st = some ((), st')) :
    st'.world = st.world := by
  induction bs generalizing st with
  | nil =>
    obtain ⟨-, rfl⟩ := Prod.mk.inj (Option.some.inj hrun)
    rfl
  | cons e bs ih =>
    obtain ⟨⟨i, hi⟩, hbs⟩ := List.forall_mem_cons.mp hbs
    obtain ⟨⟨⟩, st₁, hdispose, hrest⟩ := Meaning.exists_of_run_bind hrun
    rw [hi] at hdispose
    obtain ⟨-, rfl⟩ := Prod.mk.inj (Option.some.inj hdispose)
    exact (ih hbs hrest).trans rfl

theorem returns_disposeAll_effects {bs : List (BindingId × Binding C)}
    (hbs : ∀ e ∈ bs, ∃ i, e.2 = .effect i) (st : LiveState C H) :
    client.Returns fuel (Disposer.disposeAll bs) st := by
  induction bs generalizing st with
  | nil => exact ⟨(), st, rfl⟩
  | cons e bs ih =>
    obtain ⟨⟨i, hi⟩, hbs⟩ := List.forall_mem_cons.mp hbs
    refine Returns.bind ?_ fun _ st₁ _ ↦ ih hbs st₁
    rw [hi]
    exact ⟨(), _, rfl⟩

theorem run_dispose_effects {d : Disposer C} (hd : ∀ e ∈ d.owned, ∃ i, e.2 = .effect i)
    (hrun : client.run fuel d.dispose st = some ((), st')) :
    st'.world = st.world.modifyLedger (st.world.viewModel d.vm).ledger fun l ↦ l.remove d.ids := by
  obtain ⟨st₁, hall, rfl⟩ := run_dispose hrun
  have hworld := run_disposeAll_effects hd hall
  rw [State.world_withWorld, State.letGo, State.withHoldings, State.world_withWorld, hworld]
  rfl

theorem run_linkIfAny_builtin {scope : Scope} {program : Option (Program C)} {target : Target}
    {w : World C H} {l : Ledger (Binding C)} {answer : Except LinkError Unit}
    (hst : w.Equips scope.vm l st.world)
    (hprogram : ∀ p, program = some p →
      p.Uses (fun a ↦ a.directive.behaviour.IsBuiltin) fun _ ↦ False)
    (hrun : client.run fuel (Program.linkIfAny scope target program) st = some (answer, st')) :
    w.Equips scope.vm l st'.world := by
  cases program with
  | none =>
    obtain ⟨-, rfl⟩ := Prod.mk.inj (Option.some.inj hrun)
    exact hst
  | some p =>
    have hst' := Live.Triples.supports_equips.link target target.among_all p (hprogram p rfl)
      st answer st' hst hrun
    cases answer with
    | ok u => exact hst'
    | error e => exact hst'

/-- Carrying out the program of a component on a copy of its template enters effects, and otherwise
works on new nodes. -/
theorem run_execute_copy (hst : st.world.Prepared K V t) {template : NodeId}
    (htemplate : (st.world.component c).template = some template) {owner : Option ViewModelId}
    {answer : Except LinkError (Disposer C)}
    (hrun : client.run fuel
      (Live.execute (st.world.component c).program ⟨(st.world.component c).vm, owner, .none⟩
        (.node (st.world.nodes.deepClone template).1)) (st.withWorld (st.world.copied template)) =
          some (answer, st')) :
    ∃ (st₁ : LiveState C H) (l l₁ : Ledger (Binding C)) (new : List (BindingId × Binding C)),
      l.Sound ∧ st.world.Builds client (st.world.component c).vm
        (st.world.nodes.deepClone template).2 l [] st₁.world ∧
      st.world.Gathers (st.world.component c).vm st₁.world l l₁ new ∧
      st.world.Equips (st.world.component c).vm l st₁.world ∧
      (∀ e ∈ new, ∃ i, e.2 = .effect i) ∧
      (answer = .ok ⟨(st.world.component c).vm, new⟩ ∧ st' = st₁ ∨
        (∃ e, answer = .error e) ∧ st.world.Undisturbed st'.world ∧
          client.run fuel (Disposer.dispose ⟨(st.world.component c).vm, new⟩) st₁ =
            some ((), st')) := by
  have hc := World.lt_of_template htemplate
  obtain ⟨l, hl, hsound⟩ := (hst.hosts_component hc).ledger
  obtain ⟨compiler, tree, hregistry, hprogram⟩ := hst.program c hc
  have hkeeps : compiler.registry.All fun d ↦ d.behaviour.KeepsTo client := by
    rw [hregistry]
    exact Registry.all_builtin trivial trivial
  have hbuiltin : compiler.registry.All fun d ↦ d.behaviour.IsBuiltin := by
    rw [hregistry]
    exact Registry.all_builtin trivial trivial
  obtain ⟨linked, st₁, l₁, new, hlink, hbuilds, hgathers, hend⟩ :=
    (World.Builds.copied hst.linked hl template).run_execute
      (hst.hosts_component hc).viewModel hsound hl
      (hprogram ▸ Compiler.uses_compile hkeeps.of_resolve? tree) (List.mem_singleton_self _) hrun
  have hequips := run_linkIfAny_builtin ((World.Equips.start hl).of_nodes _ _)
    (hprogram ▸ Compiler.uses_compile hbuiltin.of_resolve? tree) hlink
  refine ⟨st₁, l, l₁, new, hsound, hbuilds, hgathers, hequips, fun e he ↦ ?_, ?_⟩
  · -- What is new has an identity that nothing had before.
    obtain ⟨l', hl', heffects⟩ := hequips.effects
    obtain rfl : l' = l₁ := Option.some.inj (hl'.symm.trans hgathers.after)
    refine (heffects e ?_).resolve_left fun hold ↦ ?_
    · rw [hgathers.gains.entries]
      exact List.mem_append_right _ he
    · have hlt := hsound.lt e.1 (List.mem_map_of_mem hold)
      exact Nat.not_lt.mpr (hgathers.gains.mem_issued (List.mem_map_of_mem he)).1 hlt
  · rcases hend with ⟨-, hok, rfl⟩ | ⟨e, -, he, hdispose, -, hundisturbed⟩
    · exact .inl ⟨hok, rfl⟩
    · exact .inr ⟨⟨e, he⟩, hundisturbed, hdispose⟩

end Client

/-! ## Mounting -/

namespace World

variable {client : Client C H} {K : C → Prop} {V : ViewModelId → Prop} {w w₁ w₂ : World C H}
  {t : TableId} {c : ComponentId} {vm : ViewModelId} {n copy : NodeId} {s : NodeStore}
  {l l₁ : Ledger (Binding C)} {new : List (BindingId × Binding C)}

theorem Gathers.continues (h : w.Gathers vm w₁ l l₁ new) (hl : l.Sound)
    (hvm : w₁.viewModels = w.viewModels) : w.Continues w₁ := by
  have hledger (vm : ViewModelId) : (w₁.viewModel vm).ledger = (w.viewModel vm).ledger := by
    rw [viewModel, viewModel, hvm]
  refine ⟨Nat.le_of_eq (congrArg Array.size hvm.symm), fun vm _ ↦ hledger vm, fun i k hk hk' ↦ ?_⟩
  by_cases hi : i = (w.viewModel vm).ledger.index
  · refine ⟨l₁, ?_, h.gains.sound hl⟩
    rw [hi, ← hledger]
    exact h.after
  · exact ⟨k, h.others i k hi hk, hk'⟩

/-- Other ledgers are left alone. -/
theorem Gathers.spared (h : w.Gathers vm w₁ l l₁ new) (hvm : w₁.viewModels = w.viewModels)
    {vm' : ViewModelId} (hvm' : w.Hosts vm')
    (hapart : (w.viewModel vm').ledger ≠ (w.viewModel vm).ledger) :
    w₁.ledgerOf vm' = w.ledgerOf vm' := by
  obtain ⟨k, hk, -⟩ := hvm'.ledger
  have hk₁ : w₁.ledger? vm' = some k := by
    rw [ledger?, viewModel, hvm]
    exact h.others _ k (fun heq ↦ hapart (congrArg LedgerId.mk heq)) hk
  rw [ledgerOf_of_ledger? hk, ledgerOf_of_ledger? hk₁]

theorem Equips.persists (h : w.Equips vm l w₁) (hl : l.Sound)
    (hbuilds : w.Builds client vm s l [] w₁) (hgathers : w.Gathers vm w₁ l l₁ new) :
    w.Persists w₁ where
  continues := hgathers.continues hl h.viewModels
  disposed vm' hvm' := by rwa [h.viewModel]
  kinds := hbuilds.nodes.agrees.of_id Node.kind
  size := congrArg Array.size h.components
  components c := ⟨(w.component c).mounted, h.component c⟩

theorem Persists.settled (hw : w.nodes.Linked) (hn : n.index < w.nodes.size) (d : Disposer C) :
    w.Persists (w.settled c t n copy d) := by
  have hplaced : w.Persists ((w.modifyTable t fun T ↦ T.insert n d).modifyNodes fun s ↦
    s.append n copy) := of_eq (hw.kinds_append hn copy) rfl rfl rfl
  exact hplaced.trans (.modifyComponent _ c _)

/-- The copy of a template is a fragment, and is still one when a program has been carried out on
it. -/
theorem Builds.kind_copy (hw : w.Prepared K V t) {template : NodeId}
    (htemplate : (w.component c).template = some template)
    (h : w.Builds client vm (w.nodes.deepClone template).2 l [] w₁) :
    w.nodes.size ≤ (w.nodes.deepClone template).1.index ∧
      (w₁.nodes.get (w.nodes.deepClone template).1).kind = .fragment := by
  obtain ⟨hcopy, hlt, -⟩ := (NodeStore.Extends.refl hw.linked).plant (w.nodes.tree template)
  refine ⟨Nat.le_of_eq (congrArg NodeId.index hcopy).symm, ?_⟩
  have hkept := h.kinds.get (w.nodes.deepClone template).1 (hcopy ▸ hlt) List.not_mem_nil
  refine hkept.trans ((hw.linked.kind_plant (w.nodes.tree template)).trans ?_)
  rw [NodeStore.tree, NodeStore.treeTo.eq_def]
  exact (hw.template c template htemplate).2

/-- What has been carried out on a copy of a template is put at the end of a node. -/
theorem Receives.of_settled (hw : w.Prepared K V t) {template : NodeId}
    (htemplate : (w.component c).template = some template) (hl : l.Sound)
    (hbuilds : w.Builds client (w.component c).vm (w.nodes.deepClone template).2 l [] w₁)
    (hgathers : w.Gathers (w.component c).vm w₁ l l₁ new)
    (hequips : w.Equips (w.component c).vm l w₁) (hnew : ∀ e ∈ new, ∃ i, e.2 = .effect i)
    (hn : n.index < w.nodes.size) :
    w.Receives t c n ⟨(w.component c).vm, new⟩
      (w₁.nodes.get (w.nodes.deepClone template).1).children
      (w₁.settled c t n (w.nodes.deepClone template).1 ⟨(w.component c).vm, new⟩) := by
  obtain ⟨hcopy, hkind⟩ := hbuilds.kind_copy hw htemplate
  have hn₁ := Nat.lt_of_lt_of_le hn hbuilds.nodes.agrees.size
  have hc₁ : c.index < w₁.components.size := hequips.components ▸ lt_of_template htemplate
  -- What is below the copy moves to the node; nothing else moves.
  have hget {m : NodeId} (hm : m.index < w.nodes.size) :=
    hbuilds.nodes.get_append_fragment hn hcopy hkind hm
  exact {
    persists := (hequips.persists hl hbuilds hgathers).trans (.settled hbuilds.nodes.linked hn₁ _)
    linked := hbuilds.nodes.linked.append hn₁ _
    mounted := congrArg Component.mounted (component_modifyComponent_self hc₁ _)
    others := fun c' hne ↦ congrArg Component.mounted
      ((component_modifyComponent_of_ne hne _).trans (hequips.component c'))
    table := fun T hT ↦ by
      refine table?_modifyTable ?_ _
      rwa [table?, hequips.tables]
    vm := rfl
    effects := hnew
    gained := by
      rw [ledgerOf_of_ledger? hgathers.before]
      exact (congrArg Ledger.entries (ledgerOf_of_ledger? hgathers.after)).trans
        hgathers.gains.entries
    spared := fun vm hvm hapart ↦
      congrArg Ledger.entries (hgathers.spared hequips.viewModels hvm hapart)
    children := by
      refine (congrArg Node.children (hget hn)).trans ?_
      rw [Node.children_placed, if_pos rfl]
    new := fun r hr ↦ hbuilds.nodes.new_child hcopy hr
    parent := fun m hm ↦ by
      rw [show (w₁.settled c t n _ _).nodes.get m = _ from hget hm, Node.parent_placed] }

/-- What came to a node is still there when hooks have run. -/
theorem Receives.of_stands (h : w.Receives t c n d roots w₁) (hw : w.Prepared K V t)
    (h' : w₁.Stands w₂) : w.Receives t c n d roots w₂ := by
  have hsize {vm : ViewModelId} (hvm : w.Hosts vm) : vm.index < w₁.viewModels.size :=
    Nat.lt_of_lt_of_le hvm.viewModel h.persists.continues.viewModels
  have hc : c.index < w.components.size := h.persists.size ▸ lt_of_mounted h.mounted
  exact {
    persists := h.persists.trans h'.persists
    linked := h'.nodes ▸ h.linked
    mounted := (congrArg Component.mounted (h'.component c)).trans h.mounted
    others := fun c' hc' ↦ (congrArg Component.mounted (h'.component c')).trans (h.others c' hc')
    table := fun T hT ↦ (h'.table? t).trans (h.table T hT)
    vm := h.vm
    effects := h.effects
    gained := by
      rw [h'.ledgerOf (hsize (h.vm ▸ hw.hosts_component hc))]
      exact h.gained
    spared := fun vm hvm hapart ↦ by
      rw [h'.ledgerOf (hsize hvm)]
      exact h.spared vm hvm hapart
    children := h'.nodes ▸ h.children
    new := h.new
    parent := h'.nodes ▸ h.parent }

/-- What has been carried out on a copy of a template can be undone. -/
theorem Idles.of_undone (hl : l.Sound)
    (hbuilds : w.Builds client vm s l [] w₁) (hgathers : w.Gathers vm w₁ l l₁ new)
    (hequips : w.Equips vm l w₁) (ids : List BindingId)
    (hundisturbed : w.Undisturbed
      (w₁.modifyLedger (w₁.viewModel vm).ledger fun l ↦ l.remove ids)) :
    w.Idles t (w₁.modifyLedger (w₁.viewModel vm).ledger fun l ↦ l.remove ids) where
  persists := (hequips.persists hl hbuilds hgathers).trans
    (.modifyLedger w₁ _ fun l hl ↦ hl.remove ids)
  linked := hbuilds.nodes.linked
  mounted c := congrArg Component.mounted (hequips.component c)
  table := congrArg (·[t.index]?) hequips.tables
  entries vm' hvm' := by
    obtain ⟨k, hk, -⟩ := hvm'.ledger
    obtain ⟨k', hk', hentries⟩ := hundisturbed.ledgers _ k hk
    rw [← hequips.viewModel] at hk'
    rw [ledgerOf_of_ledger? hk, ledgerOf_of_ledger? hk', hentries]
  parent m hm := by rw [hundisturbed.nodes m hm]

theorem Idles.refl (hw : w.nodes.Linked) : w.Idles t w :=
  ⟨.refl w, hw, fun _ ↦ rfl, rfl, fun _ _ ↦ rfl, fun _ _ ↦ rfl⟩

/-- What code holds meanwhile does not matter. -/
theorem Idles.holdings (h : w.Idles t w₁) (hs : List (List (Held C))) :
    w.Idles t { w₁ with holdings := hs } :=
  ⟨h.persists.trans (Stands.persists (.of_eq rfl rfl rfl rfl rfl)), h.linked, h.mounted, h.table,
    h.entries, h.parent⟩

end World

namespace Client

variable {client : Client C H} {K : C → Prop} {V : ViewModelId → Prop} {fuel : Nat}
  {st st' : LiveState C H} {t : TableId} {c : ComponentId} {n : NodeId}

/-- A mount fails without a trace; or the component comes to the node, where nothing was mounted,
and it was not mounted itself, nor was its view-model disposed. -/
theorem run_mount_cases (hclient : client.Harmless K) (hst : st.world.Prepared K V t)
    (hn : n.index < st.world.nodes.size) {owner : Option ViewModelId}
    {answer : Except MountError Unit}
    (hrun : client.run fuel (c.mount t n owner) st = some (answer, st')) :
    st'.world.Awaits K ∧
      ((∃ e, answer = .error e) ∧ st.world.Idles t st'.world ∨
        answer = .ok () ∧ (st.world.component c).mounted = .none ∧
          (st.world.viewModel (st.world.component c).vm).disposed = false ∧
          (st.world.table t).find? n = .none ∧
          ∃ d roots, st.world.Receives t c n d roots st'.world) := by
  cases run_mount hrun with
  | @refused e hreason => exact ⟨hst.hooks, .inl ⟨⟨e, rfl⟩, .refl hst.linked⟩⟩
  | @failed template e st₁ hfree htemplate hexecution =>
    obtain ⟨st₂, l, l₁, new, hsound, hbuilds, hgathers, hequips, hnew, hend⟩ :=
      run_execute_copy hst htemplate hexecution
    rcases hend with ⟨hok, -⟩ | ⟨-, hundisturbed, hdispose⟩
    · contradiction
    have hworld := run_dispose_effects hnew hdispose
    rw [hworld] at hundisturbed
    have hidles := World.Idles.of_undone (t := t) hsound hbuilds hgathers hequips _
      hundisturbed
    rw [← hworld] at hidles
    have hlifecycles : st₁.world.lifecycles = st₂.world.lifecycles := by
      rw [hworld]
      rfl
    exact ⟨hst.hooks.of_eq (hlifecycles.trans hequips.lifecycles),
      .inl ⟨⟨_, rfl⟩, hidles.holdings _⟩⟩
  | @mounted template d st₁ st₂ hfree htemplate hexecution hhooks =>
    obtain ⟨st₃, l, l₁, new, hsound, hbuilds, hgathers, hequips, hnew, hend⟩ :=
      run_execute_copy hst htemplate hexecution
    rcases hend with ⟨hok, rfl⟩ | ⟨⟨e, he⟩, -⟩
    · obtain rfl := Except.ok.inj hok
      obtain ⟨hmounted, hdisposed, htaken⟩ := (World.refusal?_eq_none htemplate).mp hfree
      have hreceives := World.Receives.of_settled hst htemplate hsound hbuilds hgathers hequips hnew
        hn
      have hawaits : (st₁.withWorld (st₁.world.settled c t n
          (st.world.nodes.deepClone template).1 ⟨(st.world.component c).vm, new⟩)).world.Awaits K :=
        hst.hooks.of_eq hequips.lifecycles
      obtain ⟨hstands, hawaits'⟩ := run_hooks hclient hawaits hhooks
      have hletGo : st₂.world.Stands st₂.letGo.world := .of_eq rfl rfl rfl rfl rfl
      have hkept := hreceives.of_stands hst (hstands.trans hletGo)
      have hfind := MountTable.isMounted_eq_false.mp htaken
      exact ⟨hawaits', .inr ⟨rfl, hmounted, hdisposed, hfind, _, _, hkept⟩⟩
    · contradiction

end Client

/-! ## Unmounting -/

namespace World

variable {K : C → Prop} {V : ViewModelId → Prop} {w w₁ : World C H} {t : TableId}
  {c : ComponentId} {n : NodeId} {d : Disposer C} {roots : List NodeId}

/-- The world in which what was mounted on a node has been taken out of the table and disposed. -/
def takenDown (w : World C H) (t : TableId) (n : NodeId) (d : Disposer C) : World C H :=
  (w.modifyTable t fun T ↦ T.erase n).modifyLedger (w.viewModel d.vm).ledger fun l ↦ l.remove d.ids

theorem Persists.unsettled (w : World C H) (c : ComponentId) (n : NodeId) (roots : List NodeId) :
    w.Persists (w.unsettled c n roots) :=
  (modifyComponent w c none).trans (of_eq (.refl _ _ _) rfl rfl rfl)

theorem Persists.takenDown (w : World C H) (t : TableId) (n : NodeId) (d : Disposer C) :
    w.Persists (w.takenDown t n d) := by
  have herased : w.Persists (w.modifyTable t fun T ↦ T.erase n) := of_eq (.refl _ _ _) rfl rfl rfl
  exact herased.trans (.modifyLedger _ _ fun l hl ↦ hl.remove d.ids)

theorem Persists.cleared (hw : w.nodes.Linked) (vm : ViewModelId) (roots : List NodeId) :
    w.Persists (w.cleared vm roots) := by
  have hfreed : w.Persists (w.modifyNodes fun nodes ↦ roots.foldl NodeStore.detach nodes) :=
    of_eq (hw.frees_foldl_detach roots).kinds rfl rfl rfl
  exact hfreed.trans (.markDisposed _ vm)

/-- Clearing leaves ledgers alone. -/
theorem ledgerOf_cleared (w : World C H) (vm vm' : ViewModelId) (roots : List NodeId)
    (hs : List (List (Held C))) :
    ({ w with holdings := hs }.cleared vm roots).ledgerOf vm' = w.ledgerOf vm' := by
  rw [ledgerOf, cleared, viewModel_modifyViewModel]
  split
  case isTrue h =>
    rw [h.1]
    rfl
  case isFalse => rfl

theorem entries_takenDown_self (hd : w.Hosts d.vm) :
    ((w.takenDown t n d).ledgerOf d.vm).entries =
      (w.ledgerOf d.vm).entries.filter fun e ↦ !(d.owned.map Prod.fst).contains e.1 := by
  obtain ⟨l, hl, -⟩ := hd.ledger
  have hl' : (w.modifyTable t fun T ↦ T.erase n).ledger? d.vm = some l := hl
  have hremoved := ledger?_modifyLedger_self hl' fun l ↦ l.remove d.ids
  rw [ledgerOf_of_ledger? hl]
  exact congrArg Ledger.entries (ledgerOf_of_ledger? hremoved)

theorem ledgerOf_takenDown_of_ne {vm : ViewModelId} (hvm : w.Hosts vm)
    (hapart : (w.viewModel vm).ledger ≠ (w.viewModel d.vm).ledger) :
    (w.takenDown t n d).ledgerOf vm = w.ledgerOf vm := by
  obtain ⟨k, hk, -⟩ := hvm.ledger
  have hk' : (w.takenDown t n d).ledger? vm = some k := by
    rw [takenDown, ledger?_modifyLedger]
    exact (if_neg hapart).trans hk
  rw [ledgerOf_of_ledger? hk, ledgerOf_of_ledger? hk']

/-- When destroy hooks have run, what is mounted is taken down, and its nodes are taken out. -/
theorem Releases.of_cleared (hw : w.Prepared K V t)
    (hc : (w.component c).mounted = some (n, roots)) (hvm : d.vm = (w.component c).vm)
    (hstands : (w.unsettled c n roots).Stands w₁) (hs : List (List (Held C))) :
    w.Releases t c n d roots
      ({ w₁.takenDown t n d with holdings := hs }.cleared (w.component c).vm roots) := by
  have hlt := lt_of_mounted hc
  have hhosts : w.Hosts d.vm := hvm ▸ hw.hosts_component hlt
  have hbefore := (Persists.unsettled w c n roots).trans hstands.persists
  have hheld : (w₁.takenDown t n d).Persists { w₁.takenDown t n d with holdings := hs } :=
    .of_eq (.refl _ _ _) rfl rfl rfl
  have hlinked : ({ w₁.takenDown t n d with holdings := hs } : World C H).nodes.Linked :=
    hstands.nodes ▸ hw.linked
  have hcleared := Persists.cleared hlinked (w.component c).vm roots
  have hledgerOf {vm : ViewModelId} (hvm : w.Hosts vm) : w₁.ledgerOf vm = w.ledgerOf vm :=
    hstands.ledgerOf hvm.viewModel
  have hfrees : w.nodes.Frees roots (roots.foldl NodeStore.detach w₁.nodes) := by
    rw [hstands.nodes]
    exact hw.linked.frees_foldl_detach roots
  exact {
    persists := hbefore.trans ((Persists.takenDown w₁ t n d).trans (hheld.trans hcleared))
    linked := hfrees.linked hw.linked
    mounted := congrArg Component.mounted
      ((hstands.component c).trans (component_modifyComponent_self hlt _))
    others := fun c' hne ↦ congrArg Component.mounted
      ((hstands.component c').trans (component_modifyComponent_of_ne hne _))
    table := fun T hT ↦ table?_modifyTable ((hstands.table? t).trans hT) fun T ↦ T.erase n
    lost := by
      rw [ledgerOf_cleared, entries_takenDown_self (hhosts.of_continues hbefore.continues),
        hledgerOf hhosts]
    spared := fun vm hvm' hapart ↦ by
      have hapart₁ : (w₁.viewModel vm).ledger ≠ (w₁.viewModel d.vm).ledger := by
        rwa [hbefore.continues.ledger vm hvm'.viewModel,
          hbefore.continues.ledger d.vm hhosts.viewModel]
      rw [ledgerOf_cleared, ledgerOf_takenDown_of_ne (hvm'.of_continues hbefore.continues) hapart₁,
        hledgerOf hvm']
    children := fun m ↦ (congrArg Node.children (hfrees.get m)).trans (Node.children_placed ..)
    parent := fun m hm ↦ by
      refine (congrArg Node.parent (hfrees.get m)).trans ?_
      rw [Node.parent_placed, if_neg hm]
    disposed := by
      have hsize : (w.component c).vm.index < w₁.viewModels.size :=
        Nat.lt_of_lt_of_le (hw.hosts_component hlt).viewModel hbefore.continues.viewModels
      rw [cleared, viewModel_modifyViewModel, if_pos ⟨hvm, hsize⟩] }

/-- A component that is not mounted can be taken for not mounted. -/
theorem Idles.of_idle (hw : w.nodes.Linked) (hc : (w.component c).mounted = none) :
    w.Idles t (w.modifyComponent c fun component ↦ { component with mounted := none }) where
  persists := .modifyComponent w c none
  linked := hw
  mounted c' := by
    rw [component_modifyComponent]
    split
    case isTrue h => rw [h.1, hc]
    case isFalse => rfl
  table := rfl
  entries _ _ := rfl
  parent _ _ := rfl

end World

namespace Client

variable {client : Client C H} {K : C → Prop} {V : ViewModelId → Prop} {fuel : Nat}
  {st st' : LiveState C H} {t : TableId} {c : ComponentId}

/-- A component that is not mounted stays so; or it goes from its node, with what is recorded
there. -/
theorem run_unmount_cases (hclient : client.Harmless K) (hst : st.world.Prepared K V t)
    (haccords : st.world.Accords V t) {answer : Bool}
    (hrun : client.run fuel (c.unmount t) st = some (answer, st')) :
    st'.world.Awaits K ∧
      (answer = false ∧ (st.world.component c).mounted = .none ∧ st.world.Idles t st'.world ∨
        answer = true ∧ ∃ n d roots, (st.world.component c).mounted = some (n, roots) ∧
          (st.world.table t).find? n = some d ∧ d.vm = (st.world.component c).vm ∧
          st.world.Releases t c n d roots st'.world) := by
  cases run_unmount hrun with
  | idle hmounted => exact ⟨hst.hooks, .inl ⟨rfl, hmounted, .of_idle hst.linked hmounted⟩⟩
  | @unmounted n roots found st₁ st₂ hmounted hhooks hdisposal =>
    have hunsettled : (st.withWorld (st.world.unsettled c n roots)).world.Awaits K :=
      hst.hooks.of_eq rfl
    obtain ⟨hstands, hawaits⟩ := run_hooks hclient hunsettled hhooks
    have htable : st₁.world.table t = st.world.table t := hstands.table t
    obtain ⟨d, hd, hvm, heffects⟩ := haccords.record c n roots hmounted
    rcases run_unmountNode hdisposal with ⟨-, hnone, -⟩ | ⟨d', -, hd', hdispose⟩
    · rw [htable, hd] at hnone
      contradiction
    · obtain rfl : d = d' := Option.some.inj (hd.symm.trans (htable ▸ hd'))
      have hworld : st₂.world = st₁.world.takenDown t n d := run_dispose_effects heffects hdispose
      have hreleases := World.Releases.of_cleared hst hmounted hvm hstands st₂.world.holdings.tail
      rw [← hworld] at hreleases
      have hlifecycles : st₂.world.lifecycles = st₁.world.lifecycles := by
        rw [hworld]
        rfl
      exact ⟨hawaits.of_eq hlifecycles, .inr ⟨rfl, n, d, roots, hmounted, hd, hvm, hreleases⟩⟩

theorem returns_unmountNode {n : NodeId}
    (heffects : ∀ d, (st.world.table t).find? n = some d → ∀ e ∈ d.owned, ∃ i, e.2 = .effect i) :
    client.Returns fuel (t.unmount n) st := by
  refine Returns.bind ⟨_, _, rfl⟩ fun d? st₁ htake ↦ ?_
  obtain ⟨hfind, rfl⟩ := Prod.mk.inj (Option.some.inj htake)
  cases d? with
  | none => exact ⟨false, _, rfl⟩
  | some d =>
    have hall (st' : LiveState C H) : client.Returns fuel (Disposer.disposeAll d.owned) st' :=
      returns_disposeAll_effects (heffects d hfind) st'
    refine Returns.bind (Returns.bind (returns_holding (hall _)) fun _ _ _ ↦ ⟨_, _, rfl⟩) ?_
    exact fun _ _ _ ↦ ⟨true, _, rfl⟩

/-- If hooks come to an end, then so does unmounting: what is disposed are effects. -/
theorem returns_unmount (hclient : client.Harmless K)
    (hanswers : ∀ code, K code → ∀ st, client.Returns fuel (client.perform code) st)
    (hst : st.world.Prepared K V t) (haccords : st.world.Accords V t) :
    client.Returns (fuel + 1) (c.unmount t) st := by
  refine Returns.bind ⟨_, _, rfl⟩ fun component st₀ htake ↦ ?_
  obtain ⟨rfl, rfl⟩ := Prod.mk.inj (Option.some.inj htake)
  cases hmounted : (st.world.component c).mounted with
  | none => exact ⟨false, _, rfl⟩
  | some x =>
    obtain ⟨n, roots⟩ := x
    obtain ⟨d, hd, -, heffects⟩ := haccords.record c n roots hmounted
    refine Returns.bind (returns_holding ?_) fun _ st₁ _ ↦ ⟨true, _, rfl⟩
    refine Returns.bind ⟨_, _, rfl⟩ fun l st₁ hlifecycle ↦ ?_
    obtain ⟨rfl, rfl⟩ := Prod.mk.inj (Option.some.inj hlifecycle)
    have hunsettled : (st.withWorld (st.world.unsettled c n roots)).world.Awaits K :=
      hst.hooks.of_eq rfl
    refine Returns.bind (returns_hooks hanswers hunsettled _ _) fun _ st₂ hhooks ↦ ?_
    obtain ⟨hstands, -⟩ := run_hooks hclient hunsettled hhooks
    have htable : st₂.world.table t = st.world.table t := hstands.table t
    refine Returns.bind (returns_unmountNode fun d' hd' ↦ ?_) fun _ _ _ ↦ ⟨_, _, rfl⟩
    obtain rfl : d = d' := Option.some.inj (hd.symm.trans (htable ▸ hd'))
    exact heffects

end Client

end LiveMarkup
