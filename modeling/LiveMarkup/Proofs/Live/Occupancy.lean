import LiveMarkup.Proofs.Live.Fields
import LiveMarkup.Proofs.Live.Tenancy
import LiveMarkup.Proofs.Node.Linked

/-!
# Who is mounted where

A component that is mounted is known in three places: it knows its node and what it has put there,
the mount table knows the node and what was installed, and the ledger of its view-model knows that.
These three accord with each other (`World.Accords`) if nothing is mounted. They still do when a
component has been mounted (`World.Receives`) or unmounted (`World.Releases`), and when neither was
possible (`World.Idles`).

What a ledger holds is compared in order, not as a set. The table lists what was mounted last first,
and a ledger what was entered first, so the ledger of a view-model is the table, read backwards and
as far as it is for that view-model (`MountTable.bindingsOf`).
-/

namespace LiveMarkup

variable {C H : Type}

namespace MountTable

variable {T : MountTable C} {n : NodeId} {d : Disposer C} {vm : ViewModelId}

/-- Whether no node has two records. -/
def Distinct (T : MountTable C) : Prop := (T.programs.map Prod.fst).Nodup

/-- What is installed for a view-model, in the order in which it was mounted. -/
def bindingsOf (T : MountTable C) (vm : ViewModelId) : List (BindingId × Binding C) :=
  (T.programs.reverse.filter fun p ↦ p.2.vm = vm).flatMap fun p ↦ p.2.owned

theorem distinct_erase (h : T.Distinct) (n : NodeId) : (T.erase n).Distinct :=
  h.sublist (List.filter_sublist.map _)

theorem distinct_insert (h : T.Distinct) (n : NodeId) (d : Disposer C) :
    (T.insert n d).Distinct := by
  refine List.nodup_cons.mpr ⟨fun hmem ↦ ?_, distinct_erase h n⟩
  obtain ⟨p, hp, hn⟩ := List.mem_map.mp hmem
  exact bne_iff_ne.mp (List.mem_filter.mp hp).2 hn

theorem bindingsOf_cons (p : NodeId × Disposer C) (ps : List (NodeId × Disposer C))
    (vm : ViewModelId) : bindingsOf ⟨p :: ps⟩ vm =
      bindingsOf ⟨ps⟩ vm ++ if p.2.vm = vm then p.2.owned else [] := by
  rw [bindingsOf, List.reverse_cons, List.filter_append, List.flatMap_append]
  refine congrArg (_ ++ ·) ?_
  by_cases h : p.2.vm = vm
  · simp [h]
  · simp [h]

theorem bindingsOf_append (ps qs : List (NodeId × Disposer C)) (vm : ViewModelId) :
    bindingsOf ⟨ps ++ qs⟩ vm = bindingsOf ⟨qs⟩ vm ++ bindingsOf ⟨ps⟩ vm := by
  rw [bindingsOf, List.reverse_append, List.filter_append, List.flatMap_append]
  rfl

theorem bindingsOf_insert (h : T.find? n = none) (d : Disposer C) (vm : ViewModelId) :
    (T.insert n d).bindingsOf vm = T.bindingsOf vm ++ if d.vm = vm then d.owned else [] := by
  rw [insert, erase_of_find?_eq_none h]
  exact bindingsOf_cons (n, d) T.programs vm

/-- A record stands between others. -/
theorem Distinct.exists_split (h : T.Distinct) (hd : T.find? n = some d) :
    ∃ ps qs, T.programs = ps ++ (n, d) :: qs ∧ T.erase n = ⟨ps ++ qs⟩ := by
  obtain ⟨ps, qs, hprograms, -⟩ := List.lookup_eq_some_iff.mp hd
  refine ⟨ps, qs, hprograms, congrArg MountTable.mk ?_⟩
  rw [Distinct, hprograms, List.map_append, List.map_cons, List.nodup_middle,
    List.nodup_cons, ← List.map_append] at h
  have hrest : (ps ++ qs).filter (fun p ↦ p.1 != n) = ps ++ qs :=
    List.filter_eq_self.mpr fun p hp ↦ bne_iff_ne.mpr fun hn ↦
      h.1 (List.mem_map.mpr ⟨p, hp, hn⟩)
  rw [hprograms, List.filter_append, List.filter_cons_of_neg (by simp), ← List.filter_append,
    hrest]

theorem Distinct.find?_eq_some_iff (h : T.Distinct) :
    T.find? n = some d ↔ (n, d) ∈ T.programs := by
  refine ⟨fun hd ↦ ?_, fun hmem ↦ ?_⟩
  · obtain ⟨ps, qs, hprograms, -⟩ := h.exists_split hd
    rw [hprograms]
    exact List.mem_append_right _ List.mem_cons_self
  · obtain ⟨ps, qs, hprograms⟩ := List.append_of_mem hmem
    refine List.lookup_eq_some_iff.mpr ⟨ps, qs, hprograms, fun p hp ↦ bne_iff_ne.mpr fun hn ↦ ?_⟩
    rw [Distinct, hprograms, List.map_append, List.map_cons, List.nodup_middle,
      List.nodup_cons] at h
    exact h.1 (List.mem_append_left _ (List.mem_map.mpr ⟨p, hp, hn.symm⟩))

theorem Distinct.mem_bindingsOf (h : T.Distinct) {e : BindingId × Binding C} :
    e ∈ T.bindingsOf vm ↔ ∃ n d, T.find? n = some d ∧ d.vm = vm ∧ e ∈ d.owned := by
  simp only [bindingsOf, List.mem_flatMap, List.mem_filter, List.mem_reverse, decide_eq_true_eq,
    Prod.exists, h.find?_eq_some_iff, and_assoc]

theorem bindingsOf_erase_of_ne (h : T.Distinct) (hd : T.find? n = some d) (hvm : d.vm ≠ vm) :
    (T.erase n).bindingsOf vm = T.bindingsOf vm := by
  obtain ⟨ps, qs, hprograms, herase⟩ := h.exists_split hd
  have hT : T = ⟨ps ++ (n, d) :: qs⟩ := congrArg MountTable.mk hprograms
  rw [herase, hT, bindingsOf_append, bindingsOf_append, bindingsOf_cons, if_neg hvm,
    List.append_nil]

/-- What is taken out of the table for a view-model is what the record owns, as no binding is owned
twice. -/
theorem bindingsOf_erase_self (h : T.Distinct) (hd : T.find? n = some d)
    (hnodup : ((T.bindingsOf d.vm).map Prod.fst).Nodup) :
    (T.erase n).bindingsOf d.vm =
      (T.bindingsOf d.vm).filter fun e ↦ !(d.owned.map Prod.fst).contains e.1 := by
  obtain ⟨ps, qs, hprograms, herase⟩ := h.exists_split hd
  have hT : T = ⟨ps ++ (n, d) :: qs⟩ := congrArg MountTable.mk hprograms
  have hbindings : T.bindingsOf d.vm = bindingsOf ⟨qs⟩ d.vm ++ d.owned ++ bindingsOf ⟨ps⟩ d.vm := by
    rw [hT, bindingsOf_append, bindingsOf_cons, if_pos rfl]
  rw [hbindings, List.map_append, List.map_append, List.nodup_append'] at hnodup
  obtain ⟨hfirst, -, hlast⟩ := hnodup
  have hqs : ∀ e ∈ bindingsOf ⟨qs⟩ d.vm, e.1 ∉ d.owned.map Prod.fst := fun e he hmem ↦
    (List.nodup_append'.mp hfirst).2.2 (List.mem_map_of_mem he) hmem
  have hps : ∀ e ∈ bindingsOf ⟨ps⟩ d.vm, e.1 ∉ d.owned.map Prod.fst := fun e he hmem ↦
    hlast (List.mem_append_right _ hmem) (List.mem_map_of_mem he)
  rw [hbindings, herase, bindingsOf_append, List.filter_append, List.filter_append,
    Ledger.filter_not_contains_eq hqs, Ledger.filter_not_contains_eq hps,
    Ledger.filter_not_contains_self, List.append_nil]

end MountTable

namespace World

variable {K : C → Prop} {V : ViewModelId → Prop} {w w' w'' : World C H} {t : TableId}
  {c : ComponentId} {n : NodeId} {d : Disposer C} {roots : List NodeId}

/-! ## What stays the same -/

theorem component_modifyComponent (w : World C H) (c c' : ComponentId)
    (f : Component C → Component C) : (w.modifyComponent c f).component c' =
      if c' = c ∧ c.index < w.components.size then f (w.component c') else w.component c' := by
  rw [component, component, modifyComponent, Array.getD_eq_getD_getElem?,
    Array.getD_eq_getD_getElem?, Array.getElem?_modify]
  by_cases hne : c' = c
  · subst hne
    by_cases hlt : c'.index < w.components.size
    · simp [hlt]
    · simp [hlt]
  · have hindex : c.index ≠ c'.index := fun heq ↦ hne (congrArg ComponentId.mk heq).symm
    rw [if_neg hindex, if_neg fun h ↦ hne h.1]

theorem component_modifyComponent_self (h : c.index < w.components.size)
    (f : Component C → Component C) :
    (w.modifyComponent c f).component c = f (w.component c) := by
  rw [component_modifyComponent, if_pos ⟨rfl, h⟩]

theorem component_modifyComponent_of_ne {c' : ComponentId} (h : c' ≠ c)
    (f : Component C → Component C) : (w.modifyComponent c f).component c' = w.component c' := by
  rw [component_modifyComponent, if_neg fun h' ↦ h h'.1]

/-- Whether all hooks that wait are of one kind. -/
def Awaits (K : C → Prop) (w : World C H) : Prop :=
  ∀ l ∈ w.lifecycles, ∀ moment, ∀ code ∈ l.pending moment, K code

/-- What stays the same while components come and go: view-models and ledgers continue, who is
disposed stays so, nodes keep their kinds, and components are the same but for where they are
mounted. -/
structure Persists (w w' : World C H) : Prop where
  continues : w.Continues w'
  disposed : ∀ vm, (w.viewModel vm).disposed = true → (w'.viewModel vm).disposed = true
  kinds : w.nodes.Agrees Node.kind [] w'.nodes
  size : w'.components.size = w.components.size
  components : ∀ c, ∃ mounted, w'.component c = { w.component c with mounted }

namespace Persists

theorem refl (w : World C H) : w.Persists w :=
  ⟨.refl w, fun _ h ↦ h, .refl _ _ _, rfl, fun c ↦ ⟨(w.component c).mounted, rfl⟩⟩

theorem trans (h : w.Persists w') (h' : w'.Persists w'') : w.Persists w'' where
  continues := h.continues.trans h'.continues
  disposed vm hvm := h'.disposed vm (h.disposed vm hvm)
  kinds := h.kinds.trans h'.kinds
  size := h'.size.trans h.size
  components c := by
    obtain ⟨x, hx⟩ := h.components c
    obtain ⟨y, hy⟩ := h'.components c
    exact ⟨y, by rw [hy, hx]⟩

/-- Nodes and mount tables may change, as long as nodes keep their kinds. -/
theorem of_eq (hkinds : w.nodes.Agrees Node.kind [] w'.nodes)
    (hvm : w'.viewModels = w.viewModels) (hledgers : w'.ledgers = w.ledgers)
    (hcomponents : w'.components = w.components) : w.Persists w' where
  continues := Spares.continues (.of_eq default hvm hledgers)
  disposed vm h := by
    rw [viewModel] at h
    rwa [viewModel, hvm]
  kinds := hkinds
  size := congrArg Array.size hcomponents
  components c := ⟨(w.component c).mounted, by rw [component, component, hcomponents]⟩

/-- A component is taken for mounted somewhere, or for not mounted. -/
theorem modifyComponent (w : World C H) (c : ComponentId)
    (mounted : Option (NodeId × List NodeId)) :
    w.Persists (w.modifyComponent c fun component ↦ { component with mounted }) where
  continues := Spares.continues (.of_eq default rfl rfl)
  disposed _ h := h
  kinds := .refl _ _ _
  size := Array.size_modify ..
  components c' := by
    rw [component_modifyComponent]
    split
    · exact ⟨mounted, rfl⟩
    · exact ⟨(w.component c').mounted, rfl⟩

theorem modifyLedger (w : World C H) (i : LedgerId) {f : Ledger (Binding C) → Ledger (Binding C)}
    (hf : ∀ l, l.Sound → (f l).Sound) : w.Persists (w.modifyLedger i f) :=
  ⟨.modifyLedger w i hf, fun _ h ↦ h, .refl _ _ _, rfl, fun c ↦ ⟨(w.component c).mounted, rfl⟩⟩

theorem markDisposed (w : World C H) (vm : ViewModelId) :
    w.Persists (w.modifyViewModel vm fun m ↦ { m with disposed := true }) where
  continues := (Spares.modifyViewModel (f := fun m ↦ { m with disposed := true }) default vm
    (fun _ ↦ rfl) w).continues
  disposed vm' h := by
    rw [viewModel_modifyViewModel]
    split
    · rfl
    · exact h
  kinds := .refl _ _ _
  size := rfl
  components c := ⟨(w.component c).mounted, rfl⟩

theorem vm (h : w.Persists w') (c : ComponentId) : (w'.component c).vm = (w.component c).vm := by
  obtain ⟨x, hx⟩ := h.components c
  rw [hx]

theorem template (h : w.Persists w') (c : ComponentId) :
    (w'.component c).template = (w.component c).template := by
  obtain ⟨x, hx⟩ := h.components c
  rw [hx]

theorem program (h : w.Persists w') (c : ComponentId) :
    (w'.component c).program = (w.component c).program := by
  obtain ⟨x, hx⟩ := h.components c
  rw [hx]

end Persists

/-- Whether components can come and go: their templates are compiled with the directives of this
library, and all hooks that wait are of one kind. Their view-models are among those that are looked
at; each of these has a ledger of its own. -/
structure Prepared (K : C → Prop) (V : ViewModelId → Prop) (t : TableId) (w : World C H) :
    Prop where
  linked : w.nodes.Linked
  table : ∃ T, w.table? t = some T
  hosts : ∀ vm, V vm → w.Hosts vm
  apart : ∀ vm vm', V vm → V vm' →
    (w.viewModel vm).ledger = (w.viewModel vm').ledger → vm = vm'
  vm : ∀ c, c.index < w.components.size → V (w.component c).vm
  template : ∀ c n, (w.component c).template = some n →
    n.index < w.nodes.size ∧ (w.nodes.get n).kind = .fragment
  program : ∀ c, c.index < w.components.size → ∃ (compiler : Compiler C) (tree : Tree NodeId),
    compiler.registry = .builtin ∧ (w.component c).program = (compiler.compile tree).1
  hooks : w.Awaits K

theorem Prepared.of_persists (h : w.Prepared K V t) (h' : w.Persists w')
    (hlinked : w'.nodes.Linked) (htable : ∃ T, w'.table? t = some T) (hhooks : w'.Awaits K) :
    w'.Prepared K V t where
  linked := hlinked
  table := htable
  hosts vm hvm := (h.hosts vm hvm).of_continues h'.continues
  apart vm vm' hvm hvm' hledger := by
    rw [h'.continues.ledger _ (h.hosts vm hvm).viewModel,
      h'.continues.ledger _ (h.hosts vm' hvm').viewModel] at hledger
    exact h.apart vm vm' hvm hvm' hledger
  vm c hc := by
    rw [h'.vm]
    exact h.vm c (h'.size ▸ hc)
  template c n hn := by
    obtain ⟨hlt, hkind⟩ := h.template c n (h'.template c ▸ hn)
    exact ⟨Nat.lt_of_lt_of_le hlt h'.kinds.size,
      (h'.kinds.get n hlt List.not_mem_nil).trans hkind⟩
  program c hc := by
    rw [h'.program]
    exact h.program c (h'.size ▸ hc)
  hooks := hhooks

theorem component_of_not_lt (h : ¬ c.index < w.components.size) : w.component c = default := by
  simp [component, Array.getD_eq_getD_getElem?, h]

/-- A component that is mounted somewhere exists. -/
theorem lt_of_mounted {x : NodeId × List NodeId} (h : (w.component c).mounted = some x) :
    c.index < w.components.size := by
  by_contra hnot
  rw [component_of_not_lt hnot] at h
  contradiction

theorem Prepared.hosts_component (h : w.Prepared K V t) (hc : c.index < w.components.size) :
    w.Hosts (w.component c).vm := h.hosts _ (h.vm c hc)

/-- A component that has a template exists. -/
theorem lt_of_template (h : (w.component c).template = some n) : c.index < w.components.size := by
  by_contra hnot
  rw [component_of_not_lt hnot] at h
  contradiction

/-! ## Accord -/

/-- Whether components, the mount table and ledgers accord on what is mounted. -/
structure Accords (V : ViewModelId → Prop) (t : TableId) (w : World C H) : Prop where
  distinct : (w.table t).Distinct
  /-- What is recorded belongs to a component that is mounted there. -/
  owner : ∀ n d, (w.table t).find? n = some d → ∃ c roots, (w.component c).mounted = some (n, roots)
  /-- A component that is mounted has a record, which owns effects. -/
  record : ∀ c n roots, (w.component c).mounted = some (n, roots) →
    ∃ d, (w.table t).find? n = some d ∧ d.vm = (w.component c).vm ∧
      ∀ e ∈ d.owned, ∃ i, e.2 = .effect i
  alone : ∀ c c' n roots roots', (w.component c).mounted = some (n, roots) →
    (w.component c').mounted = some (n, roots') → c = c'
  ledger : ∀ vm, V vm → (w.ledgerOf vm).entries = (w.table t).bindingsOf vm
  parent : ∀ c n roots, (w.component c).mounted = some (n, roots) →
    ∀ r ∈ roots, (w.nodes.get r).parent = some n

/-- Whether nothing has come or gone. -/
structure Idles (t : TableId) (w w' : World C H) : Prop where
  persists : w.Persists w'
  linked : w'.nodes.Linked
  mounted : ∀ c, (w'.component c).mounted = (w.component c).mounted
  table : w'.table? t = w.table? t
  entries : ∀ vm, w.Hosts vm → (w'.ledgerOf vm).entries = (w.ledgerOf vm).entries
  parent : ∀ m : NodeId, m.index < w.nodes.size →
    (w'.nodes.get m).parent = (w.nodes.get m).parent

/-- Whether a component has come to a node: the last children there are new. -/
structure Receives (t : TableId) (c : ComponentId) (n : NodeId) (d : Disposer C)
    (roots : List NodeId) (w w' : World C H) : Prop where
  persists : w.Persists w'
  linked : w'.nodes.Linked
  mounted : (w'.component c).mounted = some (n, roots)
  others : ∀ c', c' ≠ c → (w'.component c').mounted = (w.component c').mounted
  table : ∀ T, w.table? t = some T → w'.table? t = some (T.insert n d)
  vm : d.vm = (w.component c).vm
  effects : ∀ e ∈ d.owned, ∃ i, e.2 = .effect i
  gained : (w'.ledgerOf d.vm).entries = (w.ledgerOf d.vm).entries ++ d.owned
  spared : ∀ vm, w.Hosts vm → (w.viewModel vm).ledger ≠ (w.viewModel d.vm).ledger →
    (w'.ledgerOf vm).entries = (w.ledgerOf vm).entries
  children : (w'.nodes.get n).children = (w.nodes.get n).children ++ roots
  new : ∀ r ∈ roots, w.nodes.size ≤ r.index
  parent : ∀ m : NodeId, m.index < w.nodes.size →
    (w'.nodes.get m).parent = (w.nodes.get m).parent

/-- Whether a component has gone from a node, and its view-model is disposed: what it had put there
is taken out, and other children stay in order. -/
structure Releases (t : TableId) (c : ComponentId) (n : NodeId) (d : Disposer C)
    (roots : List NodeId) (w w' : World C H) : Prop where
  persists : w.Persists w'
  linked : w'.nodes.Linked
  mounted : (w'.component c).mounted = none
  others : ∀ c', c' ≠ c → (w'.component c').mounted = (w.component c').mounted
  table : ∀ T, w.table? t = some T → w'.table? t = some (T.erase n)
  lost : (w'.ledgerOf d.vm).entries =
    (w.ledgerOf d.vm).entries.filter fun e ↦ !(d.owned.map Prod.fst).contains e.1
  spared : ∀ vm, w.Hosts vm → (w.viewModel vm).ledger ≠ (w.viewModel d.vm).ledger →
    (w'.ledgerOf vm).entries = (w.ledgerOf vm).entries
  children : ∀ m, (w'.nodes.get m).children = (w.nodes.get m).children.filter (· ∉ roots)
  parent : ∀ m, m ∉ roots → (w'.nodes.get m).parent = (w.nodes.get m).parent
  disposed : (w'.viewModel d.vm).disposed = true

/-! ### The mount table -/

theorem Idles.table_eq (hw : w.Prepared K V t) (h : w.Idles t w') : w'.table t = w.table t := by
  obtain ⟨T, hT⟩ := hw.table
  rw [table_of_table? hT, table_of_table? (h.table.trans hT)]

theorem Receives.table_eq (hw : w.Prepared K V t) (h : w.Receives t c n d roots w') :
    w'.table t = (w.table t).insert n d := by
  obtain ⟨T, hT⟩ := hw.table
  rw [table_of_table? hT, table_of_table? (h.table T hT)]

theorem Releases.table_eq (hw : w.Prepared K V t) (h : w.Releases t c n d roots w') :
    w'.table t = (w.table t).erase n := by
  obtain ⟨T, hT⟩ := hw.table
  rw [table_of_table? hT, table_of_table? (h.table T hT)]

/-! ### Accord is kept -/

/-- Whether nothing is mounted, nothing recorded, and nothing installed. -/
structure Vacant (V : ViewModelId → Prop) (t : TableId) (w : World C H) : Prop where
  table : w.table? t = some .empty
  mounted : ∀ c, (w.component c).mounted = none
  ledger : ∀ vm, V vm → (w.ledgerOf vm).entries = []

theorem Vacant.accords (h : w.Vacant V t) : w.Accords V t := by
  have hempty : w.table t = .empty := table_of_table? h.table
  constructor
  case distinct =>
    rw [hempty]
    exact List.nodup_nil
  case owner =>
    intro n d hd
    rw [hempty] at hd
    contradiction
  case record =>
    intro c n roots hc
    rw [h.mounted] at hc
    contradiction
  case alone =>
    intro c c' n roots roots' hc
    rw [h.mounted] at hc
    contradiction
  case ledger =>
    intro vm hvm
    rw [h.ledger vm hvm, hempty]
    rfl
  case parent =>
    intro c n roots hc
    rw [h.mounted] at hc
    contradiction

namespace Accords

variable (h : w.Accords V t)

include h

theorem idles (hw : w.Prepared K V t) (h' : w.Idles t w') : w'.Accords V t := by
  have htable := h'.table_eq hw
  constructor
  case distinct =>
    rw [htable]
    exact h.distinct
  case owner =>
    intro n d hd
    obtain ⟨c, roots, hc⟩ := h.owner n d (htable ▸ hd)
    exact ⟨c, roots, (h'.mounted c).trans hc⟩
  case record =>
    intro c n roots hc
    rw [h'.mounted] at hc
    rw [htable, h'.persists.vm]
    exact h.record c n roots hc
  case alone =>
    intro c c' n roots roots' hc hc'
    rw [h'.mounted] at hc hc'
    exact h.alone c c' n roots roots' hc hc'
  case ledger =>
    intro vm hvm
    rw [htable, h'.entries vm (hw.hosts vm hvm), h.ledger vm hvm]
  case parent =>
    intro c n roots hc r hr
    rw [h'.mounted] at hc
    have hparent := h.parent c n roots hc r hr
    rw [h'.parent r (NodeStore.Linked.lt_of_parent hparent), hparent]

/-- All accord when a component has come to a node where nothing was recorded. -/
theorem receives (hw : w.Prepared K V t) (h' : w.Receives t c n d roots w')
    (hfree : (w.table t).find? n = none) (hc : (w.component c).mounted = none) :
    w'.Accords V t := by
  have htable := h'.table_eq hw
  have hlt : c.index < w.components.size := h'.persists.size ▸ lt_of_mounted h'.mounted
  -- Whoever else is mounted was so before, and elsewhere.
  have hold {c' : ComponentId} {n' : NodeId} {roots' : List NodeId} (hne : c' ≠ c)
      (hc' : (w'.component c').mounted = some (n', roots')) :
      (w.component c').mounted = some (n', roots') ∧ n' ≠ n := by
    rw [h'.others c' hne] at hc'
    refine ⟨hc', fun heq ↦ ?_⟩
    obtain ⟨d', hd', -⟩ := h.record c' n' roots' hc'
    rw [heq, hfree] at hd'
    contradiction
  have hself {n' : NodeId} {roots' : List NodeId}
      (hc' : (w'.component c).mounted = some (n', roots')) : n = n' ∧ roots = roots' :=
    Prod.mk.inj (Option.some.inj (h'.mounted.symm.trans hc'))
  constructor
  case distinct =>
    rw [htable]
    exact MountTable.distinct_insert h.distinct n d
  case owner =>
    intro n' d' hd'
    rw [htable] at hd'
    by_cases hn : n' = n
    · exact ⟨c, roots, hn ▸ h'.mounted⟩
    · rw [MountTable.find?_insert_of_ne _ hn] at hd'
      obtain ⟨c', roots', hc'⟩ := h.owner n' d' hd'
      have hne : c' ≠ c := by
        rintro rfl
        rw [hc] at hc'
        contradiction
      exact ⟨c', roots', (h'.others c' hne).trans hc'⟩
  case record =>
    intro c' n' roots' hc'
    rw [htable, h'.persists.vm]
    by_cases hne : c' = c
    · subst hne
      obtain ⟨rfl, rfl⟩ := hself hc'
      exact ⟨d, MountTable.find?_insert_self _ n d, h'.vm, h'.effects⟩
    · obtain ⟨hc', hn⟩ := hold hne hc'
      rw [MountTable.find?_insert_of_ne _ hn]
      exact h.record c' n' roots' hc'
  case alone =>
    intro c₁ c₂ n' roots₁ roots₂ hc₁ hc₂
    by_cases hne₁ : c₁ = c
    · by_cases hne₂ : c₂ = c
      · exact hne₁.trans hne₂.symm
      · subst hne₁
        exact absurd (hself hc₁).1.symm (hold hne₂ hc₂).2
    · by_cases hne₂ : c₂ = c
      · subst hne₂
        exact absurd (hself hc₂).1.symm (hold hne₁ hc₁).2
      · exact h.alone c₁ c₂ n' roots₁ roots₂ (hold hne₁ hc₁).1 (hold hne₂ hc₂).1
  case ledger =>
    intro vm hvm
    rw [htable, MountTable.bindingsOf_insert hfree, ← h.ledger vm hvm]
    by_cases heq : d.vm = vm
    · rw [if_pos heq, ← heq, h'.gained]
    · have hapart : (w.viewModel vm).ledger ≠ (w.viewModel d.vm).ledger := fun hledger ↦
        heq (hw.apart vm d.vm hvm (h'.vm ▸ hw.vm c hlt) hledger).symm
      rw [if_neg heq, List.append_nil, h'.spared vm (hw.hosts vm hvm) hapart]
  case parent =>
    intro c' n' roots' hc' r hr
    by_cases hne : c' = c
    · subst hne
      obtain ⟨rfl, rfl⟩ := hself hc'
      refine (h'.linked.mem_children n r).mp ?_
      rw [h'.children]
      exact List.mem_append_right _ hr
    · have hparent := h.parent c' n' roots' (hold hne hc').1 r hr
      rw [h'.parent r (NodeStore.Linked.lt_of_parent hparent), hparent]

/-- All accord when a component has gone. -/
theorem releases (hw : w.Prepared K V t) (h' : w.Releases t c n d roots w')
    (hd : (w.table t).find? n = some d) (hvm : d.vm = (w.component c).vm)
    (hc : (w.component c).mounted = some (n, roots)) : w'.Accords V t := by
  have htable := h'.table_eq hw
  -- Whoever is still mounted is so elsewhere.
  have hold {c' : ComponentId} {n' : NodeId} {roots' : List NodeId}
      (hc' : (w'.component c').mounted = some (n', roots')) :
      (w.component c').mounted = some (n', roots') ∧ n' ≠ n := by
    have hne : c' ≠ c := by
      rintro rfl
      rw [h'.mounted] at hc'
      contradiction
    rw [h'.others c' hne] at hc'
    exact ⟨hc', fun heq ↦ hne (h.alone c' c n roots' roots (heq ▸ hc') hc)⟩
  constructor
  case distinct =>
    rw [htable]
    exact MountTable.distinct_erase h.distinct n
  case owner =>
    intro n' d' hd'
    rw [htable] at hd'
    have hn : n' ≠ n := by
      rintro rfl
      rw [MountTable.find?_erase_self] at hd'
      contradiction
    rw [MountTable.find?_erase_of_ne _ hn] at hd'
    obtain ⟨c', roots', hc'⟩ := h.owner n' d' hd'
    have hne : c' ≠ c := by
      rintro rfl
      exact hn (Prod.mk.inj (Option.some.inj (hc'.symm.trans hc))).1
    exact ⟨c', roots', (h'.others c' hne).trans hc'⟩
  case record =>
    intro c' n' roots' hc'
    obtain ⟨hc', hn⟩ := hold hc'
    rw [htable, h'.persists.vm, MountTable.find?_erase_of_ne _ hn]
    exact h.record c' n' roots' hc'
  case alone =>
    intro c₁ c₂ n' roots₁ roots₂ hc₁ hc₂
    exact h.alone c₁ c₂ n' roots₁ roots₂ (hold hc₁).1 (hold hc₂).1
  case ledger =>
    have hd' : V d.vm := hvm ▸ hw.vm c (lt_of_mounted hc)
    intro vm hvm'
    have hledger := h.ledger vm hvm'
    rw [htable]
    by_cases heq : d.vm = vm
    · have hnodup : ((w.ledgerOf d.vm).entries.map Prod.fst).Nodup := by
        obtain ⟨l, hl, hsound⟩ := (hw.hosts d.vm hd').ledger
        rw [ledgerOf_of_ledger? hl]
        exact hsound.nodup
      rw [← heq] at hledger ⊢
      rw [hledger] at hnodup
      rw [MountTable.bindingsOf_erase_self h.distinct hd hnodup, h'.lost, hledger]
    · have hapart : (w.viewModel vm).ledger ≠ (w.viewModel d.vm).ledger := fun hledger ↦
        heq (hw.apart vm d.vm hvm' hd' hledger).symm
      rw [MountTable.bindingsOf_erase_of_ne h.distinct hd heq,
        h'.spared vm (hw.hosts vm hvm') hapart, hledger]
  case parent =>
    intro c' n' roots' hc' r hr
    obtain ⟨hc', hn⟩ := hold hc'
    have hparent := h.parent c' n' roots' hc' r hr
    have hnot : r ∉ roots := fun hmem ↦
      hn (Option.some.inj (hparent.symm.trans (h.parent c n roots hc r hmem)))
    rw [h'.parent r hnot, hparent]

end Accords

end World

end LiveMarkup
