import LiveMarkup.Proofs.Live.Evaluation
import LiveMarkup.Proofs.Reactive.Steady

/-!
# Fields

Declaring a field makes a signal for it, unless it has one. No other field gets another signal, and
nobody subscribes to a new one yet (`State.declare`).

So a new view-model that is made from data has the members of the data as its fields, and nothing
else happens (`Runner.Yields.ofData`): no effect reads what is written.
-/

namespace LiveMarkup

variable {C H : Type}

theorem Value.member?_of_not_mem {key : String} {members : List (String × Value)}
    (h : key ∉ members.map Prod.fst) : member? key members = none := by
  induction members with
  | nil => rfl
  | cons x members ih =>
    rw [List.map_cons, List.mem_cons, not_or] at h
    rw [member?, if_neg (Ne.symm h.1), ih h.2]

theorem World.viewModel_modifyViewModel (w : World C H) (i j : ViewModelId)
    (f : ViewModel → ViewModel) :
    (w.modifyViewModel i f).viewModel j =
      if j = i ∧ i.index < w.viewModels.size then f (w.viewModel i) else w.viewModel j := by
  by_cases h : j = i
  · by_cases hlt : i.index < w.viewModels.size
    · rw [if_pos ⟨h, hlt⟩, h]
      simp [viewModel, modifyViewModel, Array.getD, hlt, Array.getElem_modify_self]
    · rw [if_neg fun hc ↦ hlt hc.2, h]
      simp [viewModel, modifyViewModel, Array.getD, hlt]
  · rw [if_neg fun hc ↦ h hc.1]
    have hi : i.index ≠ j.index := fun hi ↦ h (congrArg ViewModelId.mk hi.symm)
    simp [viewModel, modifyViewModel, Array.getD_eq_getD_getElem?, Array.getElem?_modify, hi]

namespace State

/-- The signal of a field, and the state in which it is there. -/
def declare (st : LiveState C H) (vm : ViewModelId) (name : String) :
    SignalId × LiveState C H :=
  match (st.world.viewModel vm).field? name with
  | some s => (s, st)
  | none =>
    let s := (st.graph.newSignal .null).1
    (s, ⟨(st.graph.newSignal .null).2,
      st.world.modifyViewModel vm fun m ↦ { m with fields := m.fields ++ [(name, s)] }⟩)

variable {st : LiveState C H} {vm : ViewModelId} {name : String}

theorem declare_of_some {s : SignalId} (h : (st.world.viewModel vm).field? name = some s) :
    st.declare vm name = (s, st) := by
  rw [declare, h]

theorem declare_of_none (h : (st.world.viewModel vm).field? name = none) :
    st.declare vm name = ((st.graph.newSignal .null).1, ⟨(st.graph.newSignal .null).2,
      st.world.modifyViewModel vm fun m ↦
        { m with fields := m.fields ++ [(name, (st.graph.newSignal .null).1)] }⟩) := by
  rw [declare, h]

/-- The fields of the view-model once one was declared. -/
theorem field?_declare (hvm : vm.index < st.world.viewModels.size) (other : String) :
    ((st.declare vm name).2.world.viewModel vm).field? other =
      if other = name then some (st.declare vm name).1
      else (st.world.viewModel vm).field? other := by
  cases h : (st.world.viewModel vm).field? name with
  | some s =>
    rw [declare_of_some h]
    split
    · rename_i heq
      rw [heq, h]
    · rfl
  | none =>
    rw [declare_of_none h, World.viewModel_modifyViewModel, if_pos ⟨rfl, hvm⟩]
    rw [ViewModel.field?] at h
    rw [ViewModel.field?, List.lookup_append]
    split
    · rename_i heq
      rw [heq, h]
      simp
    · rename_i hne
      have hbeq : (other == name) = false := beq_eq_false_iff_ne.mpr hne
      rw [List.lookup_cons, hbeq, List.lookup_nil, Option.or_none]
      rfl

/-- A field that is there keeps its signal. -/
theorem field?_declare_of_some {other : String} {s : SignalId}
    (h : (st.world.viewModel vm).field? other = some s) :
    ((st.declare vm name).2.world.viewModel vm).field? other = some s := by
  by_cases hvm : vm.index < st.world.viewModels.size
  · rw [field?_declare hvm]
    split
    · rename_i heq
      subst heq
      rw [declare_of_some h]
    · exact h
  · rw [World.viewModel, Array.getD, dif_neg hvm] at h
    exact absurd h.symm (Option.some_ne_none s)

/-- A field is there already, or has the new signal. -/
theorem of_field?_declare {other : String} {s : SignalId}
    (h : ((st.declare vm name).2.world.viewModel vm).field? other = some s) :
    (st.world.viewModel vm).field? other = some s ∨ s = (st.declare vm name).1 := by
  by_cases hvm : vm.index < st.world.viewModels.size
  · rw [field?_declare hvm] at h
    split at h
    · exact .inr (Option.some.inj h).symm
    · exact .inl h
  · cases hname : (st.world.viewModel vm).field? name with
    | some s =>
      rw [declare_of_some hname] at h
      exact .inl h
    | none =>
      rw [declare_of_none hname, World.viewModel_modifyViewModel, if_neg fun hc ↦ hvm hc.2] at h
      exact .inl h

theorem gone_declare (st : LiveState C H) (vm : ViewModelId) (name : String) :
    ((st.declare vm name).2.world.viewModel vm).gone = (st.world.viewModel vm).gone := by
  cases h : (st.world.viewModel vm).field? name with
  | some s => rw [declare_of_some h]
  | none =>
    rw [declare_of_none h, World.viewModel_modifyViewModel]
    split <;> rfl

theorem viewModel_declare_of_ne {vm' : ViewModelId} (h : vm' ≠ vm) :
    (st.declare vm name).2.world.viewModel vm' = st.world.viewModel vm' := by
  cases hname : (st.world.viewModel vm).field? name with
  | some s => rw [declare_of_some hname]
  | none => rw [declare_of_none hname, World.viewModel_modifyViewModel, if_neg fun hc ↦ h hc.1]

/-- The fields of any view-model that are there keep their signals. -/
theorem field?_declare_of_some' {vm' : ViewModelId} {other : String} {s : SignalId}
    (h : (st.world.viewModel vm').field? other = some s) :
    ((st.declare vm name).2.world.viewModel vm').field? other = some s := by
  by_cases hvm : vm' = vm
  · subst hvm
    exact field?_declare_of_some h
  · rwa [viewModel_declare_of_ne hvm]

theorem of_field?_declare' {vm' : ViewModelId} {other : String} {s : SignalId}
    (h : ((st.declare vm name).2.world.viewModel vm').field? other = some s) :
    (st.world.viewModel vm').field? other = some s ∨ s = (st.declare vm name).1 := by
  by_cases hvm : vm' = vm
  · subst hvm
    exact of_field?_declare h
  · rw [viewModel_declare_of_ne hvm] at h
    exact .inl h

/-- What declaring a field does to the graph: at most a new signal. -/
theorem graph_declare (st : LiveState C H) (vm : ViewModelId) (name : String) :
    (st.declare vm name).2.graph = st.graph ∨
      (st.declare vm name).1 = (st.graph.newSignal .null).1 ∧
        (st.declare vm name).2.graph = (st.graph.newSignal .null).2 := by
  cases h : (st.world.viewModel vm).field? name with
  | some s =>
    rw [declare_of_some h]
    exact .inl rfl
  | none =>
    rw [declare_of_none h]
    exact .inr ⟨rfl, rfl⟩

/-- What declaring a field leaves of the world: all but the view-models. -/
theorem world_declare (st : LiveState C H) (vm : ViewModelId) (name : String) :
    (st.declare vm name).2.world =
      { st.world with viewModels := (st.declare vm name).2.world.viewModels } := by
  cases h : (st.world.viewModel vm).field? name with
  | some s => rw [declare_of_some h]
  | none =>
    rw [declare_of_none h]
    rfl

end State

/-! ## Snapshots of fields -/

/-- The fields that a view-model has, with their values. -/
abbrev Snapshot : Type := String → Option Value

/-- The values of the fields, where a field that is not there counts as `null`. -/
def Snapshot.value (fields : Snapshot) (name : String) : Value := (fields name).getD .null

namespace State

/-- The fields of a view-model that have signals, with their values. -/
def snapshot (st : LiveState C H) (vm : ViewModelId) : Snapshot := fun name ↦
  ((st.world.viewModel vm).field? name).bind fun s ↦ st.graph.signals[s.index]?.map Signal.value

variable {st st' : LiveState C H} {vm : ViewModelId} {name : String}

theorem snapshot_eq_some {v : Value} : st.snapshot vm name = some v ↔
    ∃ s, (st.world.viewModel vm).field? name = some s ∧ s.index < st.graph.signals.size ∧
      st.graph.value s = v := by
  rw [snapshot, Option.bind_eq_some_iff]
  refine exists_congr fun s ↦ and_congr_right fun _ ↦ ?_
  by_cases hlt : s.index < st.graph.signals.size
  · simp [Graph.value, Graph.signal, Array.getD, hlt]
  · simp [hlt]

theorem isSome_snapshot : (st.snapshot vm name).isSome ↔
    ∃ s, (st.world.viewModel vm).field? name = some s ∧ s.index < st.graph.signals.size := by
  simp only [Option.isSome_iff_exists, snapshot_eq_some]
  exact ⟨fun ⟨_, s, hs, hlt, _⟩ ↦ ⟨s, hs, hlt⟩, fun ⟨s, hs, hlt⟩ ↦ ⟨_, s, hs, hlt, rfl⟩⟩

@[simp] theorem value_snapshot (st : LiveState C H) (vm : ViewModelId) :
    (st.snapshot vm).value = st.fieldValue vm := by
  funext name
  rw [Snapshot.value, snapshot, fieldValue]
  cases (st.world.viewModel vm).field? name with
  | none => rfl
  | some s =>
    change (st.graph.signals[s.index]?.map Signal.value).getD .null = st.graph.value s
    by_cases hlt : s.index < st.graph.signals.size
    · simp [Graph.value, Graph.signal, Array.getD, hlt]
    · rw [Graph.value, Graph.signal_of_not_lt hlt, getElem?_neg st.graph.signals s.index hlt]
      rfl

/-- A snapshot shows fields and signals only. -/
theorem snapshot_congr (hvm : st'.world.viewModel vm = st.world.viewModel vm)
    (hsize : st'.graph.signals.size = st.graph.signals.size)
    (hvalue : ∀ s, st'.graph.value s = st.graph.value s) : st'.snapshot vm = st.snapshot vm := by
  funext name
  refine Option.ext fun v ↦ ?_
  rw [snapshot_eq_some, snapshot_eq_some, hvm, hsize]
  simp only [hvalue]

end State

/-! ## Fields that are written -/

namespace State

/-- The state in which a field is declared and written, and the effects that read it are queued. -/
def written (st : LiveState C H) (vm : ViewModelId) (name : String) (value : Value) :
    LiveState C H :=
  (st.declare vm name).2.withGraph
    ((st.declare vm name).2.graph.write (st.declare vm name).1 value)

@[simp] theorem world_written (st : LiveState C H) (vm : ViewModelId) (name : String)
    (value : Value) : (st.written vm name value).world = (st.declare vm name).2.world := rfl

@[simp] theorem graph_written (st : LiveState C H) (vm : ViewModelId) (name : String)
    (value : Value) : (st.written vm name value).graph =
      (st.declare vm name).2.graph.write (st.declare vm name).1 value := rfl

/-- What a new signal leaves alone in the graph, declaring a field does. -/
theorem part_declare {β : Type} (part : Graph Value (Routine C) → β)
    (hpart : ∀ g v, part (g.newSignal v).2 = part g) (st : LiveState C H) (vm : ViewModelId)
    (name : String) : part (st.declare vm name).2.graph = part st.graph := by
  rcases graph_declare st vm name with hgraph | ⟨-, hgraph⟩
  · rw [hgraph]
  · rw [hgraph, hpart]

theorem flushing_written (st : LiveState C H) (vm : ViewModelId) (name : String) (value : Value) :
    (st.written vm name value).graph.flushing = st.graph.flushing :=
  (Graph.flushing_write ..).trans (part_declare Graph.flushing (fun _ _ ↦ rfl) st vm name)

theorem current_written (st : LiveState C H) (vm : ViewModelId) (name : String) (value : Value) :
    (st.written vm name value).graph.current = st.graph.current :=
  (Graph.current_write ..).trans (part_declare Graph.current (fun _ _ ↦ rfl) st vm name)

theorem body_written (st : LiveState C H) (vm : ViewModelId) (name : String) (value : Value)
    (e : EffectId) : ((st.written vm name value).graph.effect e).body = (st.graph.effect e).body :=
  (Graph.body_write ..).trans (part_declare (fun g ↦ (g.effect e).body) (fun _ _ ↦ rfl) st vm name)

variable {st : LiveState C H} {vm vm' : ViewModelId} {name other : String}

theorem size_declare (st : LiveState C H) (vm : ViewModelId) (name : String) :
    st.graph.signals.size ≤ (st.declare vm name).2.graph.signals.size := by
  rcases graph_declare st vm name with hgraph | ⟨-, hgraph⟩
  · exact Nat.le_of_eq (congrArg (fun g ↦ g.signals.size) hgraph).symm
  · rw [hgraph, Graph.size_newSignal]
    exact Nat.le_succ _

theorem signal_declare {s : SignalId} (h : s.index < st.graph.signals.size) (vm : ViewModelId)
    (name : String) : (st.declare vm name).2.graph.signal s = st.graph.signal s := by
  rcases graph_declare st vm name with hgraph | ⟨-, hgraph⟩
  · rw [hgraph]
  · rw [hgraph, Graph.signal_newSignal_of_lt h]

/-- A field that is there has the signal that it had. -/
theorem exists_written {s : SignalId} (hs : (st.world.viewModel vm').field? other = some s)
    (hlt : s.index < st.graph.signals.size) (vm : ViewModelId) (name : String) (value : Value) :
    ((st.written vm name value).world.viewModel vm').field? other = some s ∧
      s.index < (st.written vm name value).graph.signals.size := by
  rw [world_written, graph_written, Graph.size_signals_write]
  exact ⟨field?_declare_of_some' hs, Nat.lt_of_lt_of_le hlt (size_declare st vm name)⟩

/-- A field with another signal is seen as it was. -/
theorem snapshot_written_of_ne {s : SignalId}
    (hs : (st.world.viewModel vm').field? other = some s) (hlt : s.index < st.graph.signals.size)
    (hne : s ≠ (st.declare vm name).1) (value : Value) :
    (st.written vm name value).snapshot vm' other = st.snapshot vm' other := by
  have hold : st.snapshot vm' other = some (st.graph.value s) :=
    snapshot_eq_some.mpr ⟨s, hs, hlt, rfl⟩
  obtain ⟨hs', hlt'⟩ := exists_written hs hlt vm name value
  have hvalue : (st.written vm name value).graph.value s = st.graph.value s := by
    rw [graph_written, Graph.value_write_of_ne _ hne, Graph.value, signal_declare hlt, Graph.value]
  rw [hold]
  exact snapshot_eq_some.mpr ⟨s, hs', hlt', hvalue⟩

/-- A field that is there is there after a write. -/
theorem isSome_snapshot_written (h : (st.snapshot vm' other).isSome) (vm : ViewModelId)
    (name : String) (value : Value) :
    ((st.written vm name value).snapshot vm' other).isSome := by
  obtain ⟨s, hs, hlt⟩ := isSome_snapshot.mp h
  exact isSome_snapshot.mpr ⟨s, exists_written hs hlt vm name value⟩

end State

theorem Runner.Yields.declare {r : LiveRunner C H} {limit : Nat} (vm : ViewModelId) (name : String)
    (st : LiveState C H) :
    r.Yields limit (vm.declare name) st (st.declare vm name).1 (st.declare vm name).2 := by
  refine (ask (fun w ↦ (w.viewModel vm).field? name) st).bind ?_
  cases h : (st.world.viewModel vm).field? name with
  | some s =>
    rw [State.declare_of_some h]
    exact done s st
  | none =>
    rw [State.declare_of_none h]
    rfl

/-! ## Fields that nobody reads -/

namespace State

/-- A write to a signal to which nobody subscribes queues nobody. -/
theorem drained_write {g : Graph Value (Routine C)} {s : SignalId}
    (hs : (g.signal s).subscribers = []) (h : g.Drained) (v : Value) : (g.write s v).Drained := by
  have hactive : g.activeSubscribers s = [] := by
    rw [Graph.activeSubscribers, hs, List.filter_nil]
  have hwrite : g.write s v =
      { g with signals := g.signals.modify s.index fun _ ↦ ⟨v, []⟩ } := by
    rw [Graph.write, hactive]
    rfl
  rw [hwrite]
  exact h

/-- Where nothing waits to run, nothing has to be worked off. -/
theorem flush_of_drained {st : LiveState C H} (hdrained : st.graph.Drained) (r : LiveRunner C H)
    (limit : Nat) : r.flush limit st = some st := by
  cases hflushing : st.graph.flushing with
  | true => exact r.flush_of_flushing st hflushing
  | false =>
    have hempty : ({ st.graph with flushing := true } : Graph Value (Routine C)).dequeue? = none :=
      Graph.dequeue?_eq_none_iff.mpr (hdrained hflushing)
    rw [r.flush_of_not_flushing st hflushing, r.drain_of_none _ hempty, Option.map_some]
    obtain ⟨g, w⟩ := st
    obtain ⟨signals, effects, queue, current, flushing⟩ := g
    obtain rfl : flushing = false := hflushing
    rfl

/-- Whether the fields of a view-model have signals of their own, to which nobody subscribes. -/
structure Unread (st : LiveState C H) (vm : ViewModelId) : Prop where
  lt : vm.index < st.world.viewModels.size
  signal : ∀ name s, (st.world.viewModel vm).field? name = some s →
    s.index < st.graph.signals.size ∧ (st.graph.signal s).subscribers = []
  injective : ∀ name other s, (st.world.viewModel vm).field? name = some s →
    (st.world.viewModel vm).field? other = some s → name = other
  drained : st.graph.Drained

/-- Whether a state differs from another only in signals and in the fields of a view-model. -/
structure Stores (vm : ViewModelId) (st st' : LiveState C H) : Prop where
  world : st'.world = { st.world with viewModels := st'.world.viewModels }
  viewModel : st'.world.viewModel vm =
    { st.world.viewModel vm with fields := (st'.world.viewModel vm).fields }

namespace Stores

variable {vm : ViewModelId} {st st₁ st₂ : LiveState C H}

theorem refl (vm : ViewModelId) (st : LiveState C H) : Stores vm st st := ⟨rfl, rfl⟩

theorem trans (h : Stores vm st st₁) (h' : Stores vm st₁ st₂) : Stores vm st st₂ where
  world := by rw [h'.world, h.world]
  viewModel := by rw [h'.viewModel, h.viewModel]

theorem of_graph (vm : ViewModelId) (st : LiveState C H) (g : Graph Value (Routine C)) :
    Stores vm st (st.withGraph g) := ⟨rfl, rfl⟩

theorem declare (vm : ViewModelId) (st : LiveState C H) (name : String) :
    Stores vm st (st.declare vm name).2 := by
  cases h : (st.world.viewModel vm).field? name with
  | some s =>
    rw [declare_of_some h]
    exact refl vm st
  | none =>
    rw [declare_of_none h]
    refine ⟨rfl, ?_⟩
    rw [World.viewModel_modifyViewModel]
    split <;> rfl

end Stores

namespace Unread

variable {st : LiveState C H} {vm : ViewModelId}

/-- A field that is declared is as unread as the others, and none has another value. -/
theorem declare (h : st.Unread vm) (name : String) :
    (st.declare vm name).2.Unread vm ∧
      (st.declare vm name).2.fieldValue vm = st.fieldValue vm := by
  cases hname : (st.world.viewModel vm).field? name with
  | some s =>
    rw [declare_of_some hname]
    exact ⟨h, rfl⟩
  | none =>
    have hfield (other : String) :
        ((st.declare vm name).2.world.viewModel vm).field? other =
          if other = name then some (st.declare vm name).1
          else (st.world.viewModel vm).field? other := field?_declare h.lt other
    rw [declare_of_none hname] at hfield ⊢
    have hold {other : String} {s : SignalId}
        (hs : (st.world.viewModel vm).field? other = some s) :
        s ≠ (st.graph.newSignal .null).1 ∧
          (st.graph.newSignal .null).2.signal s = st.graph.signal s := by
      obtain ⟨hlt, -⟩ := h.signal other s hs
      refine ⟨?_, Graph.signal_newSignal_of_lt hlt _⟩
      rintro rfl
      exact Nat.lt_irrefl _ hlt
    have hnew : (st.graph.newSignal .null).2.signal (st.graph.newSignal .null).1 = ⟨.null, []⟩ := by
      rw [Graph.signal_newSignal, if_pos rfl]
    refine ⟨⟨?_, fun other s hs ↦ ?_, fun other other' s hs hs' ↦ ?_, h.drained⟩,
      funext fun other ↦ ?_⟩
    · exact Nat.lt_of_lt_of_le h.lt (Nat.le_of_eq Array.size_modify.symm)
    · rw [hfield] at hs
      split at hs
      · obtain rfl := Option.some.inj hs
        rw [hnew, Graph.size_newSignal]
        exact ⟨Nat.lt_succ_self _, rfl⟩
      · obtain ⟨hlt, hsubscribers⟩ := h.signal other s hs
        rw [(hold hs).2, Graph.size_newSignal]
        exact ⟨Nat.lt_succ_of_lt hlt, hsubscribers⟩
    · -- The signal is new, so it is not that of another field.
      rw [hfield] at hs hs'
      split at hs <;> split at hs'
      · rename_i hother hother'
        rw [hother, hother']
      · exact absurd (Option.some.inj hs).symm (hold hs').1
      · exact absurd (Option.some.inj hs').symm (hold hs).1
      · exact h.injective other other' s hs hs'
    · rw [fieldValue, fieldValue, hfield]
      by_cases hother : other = name
      · rw [if_pos hother, hother, hname]
        exact congrArg Signal.value hnew
      · rw [if_neg hother]
        cases hs : (st.world.viewModel vm).field? other with
        | none => rfl
        | some s => exact congrArg Signal.value (hold hs).2

/-- The signal of a field that is declared. -/
theorem field?_declare_self (h : st.Unread vm) (name : String) :
    ((st.declare vm name).2.world.viewModel vm).field? name = some (st.declare vm name).1 := by
  rw [field?_declare h.lt, if_pos rfl]

/-- A write to a field that nobody reads changes its value, and nothing else. -/
theorem write (h : st.Unread vm) {name : String} {s : SignalId}
    (hs : (st.world.viewModel vm).field? name = some s) (v : Value) :
    (st.withGraph (st.graph.write s v)).Unread vm ∧
      (st.withGraph (st.graph.write s v)).fieldValue vm =
        Function.update (st.fieldValue vm) name v := by
  obtain ⟨hlt, hsubscribers⟩ := h.signal name s hs
  refine ⟨⟨h.lt, fun other s' hs' ↦ ?_, h.injective, drained_write hsubscribers h.drained v⟩,
    funext fun other ↦ ?_⟩
  · obtain ⟨hlt', hsubscribers'⟩ := h.signal other s' hs'
    refine ⟨?_, List.eq_nil_iff_forall_not_mem.mpr fun e he ↦ ?_⟩
    · rwa [graph_withGraph, Graph.size_signals_write]
    · exact absurd (hsubscribers' ▸ Graph.of_mem_subscribers_write he) List.not_mem_nil
  · by_cases hother : other = name
    · subst hother
      simp only [fieldValue, world_withGraph, graph_withGraph, hs, Function.update_self]
      exact Graph.value_write_self _ hlt v
    · rw [Function.update_of_ne hother]
      simp only [fieldValue, world_withGraph, graph_withGraph]
      cases hs' : (st.world.viewModel vm).field? other with
      | none => rfl
      | some s' =>
        have hne : s' ≠ s := fun he ↦ hother (h.injective other name s (he ▸ hs') hs)
        exact Graph.value_write_of_ne _ hne v

/-- Nothing has to be worked off. -/
theorem flush (h : st.Unread vm) (r : LiveRunner C H) (limit : Nat) :
    r.flush limit st = some st := flush_of_drained h.drained r limit

/-- Setting a field that nobody reads. -/
theorem set (h : st.Unread vm) (name : String) (v : Value) :
    ∃ st', (∀ (r : LiveRunner C H) limit, r.Yields limit (vm.set name v) st () st') ∧
      st.Stores vm st' ∧ st'.Unread vm ∧
      st'.fieldValue vm = Function.update (st.fieldValue vm) name v := by
  obtain ⟨hdeclare, hsame⟩ := h.declare name
  obtain ⟨hwrite, hvalue⟩ := hdeclare.write (h.field?_declare_self name) v
  refine ⟨_, fun r limit ↦ (Runner.Yields.declare vm name st).bind ?_,
    (Stores.declare vm st name).trans (.of_graph vm _ _), hwrite, hsame ▸ hvalue⟩
  exact congrArg (Option.bind · (r.run limit (Script.done ()))) (hwrite.flush r limit)

/-- Setting fields that nobody reads, one after the other. -/
theorem setAll (h : st.Unread vm) {members : List (String × Value)}
    (hmembers : (members.map Prod.fst).Nodup) :
    ∃ st', (∀ (r : LiveRunner C H) limit, r.Yields limit (vm.setAll members) st () st') ∧
      st.Stores vm st' ∧
      st'.fieldValue vm = fun name ↦ (Value.member? name members).getD (st.fieldValue vm name) := by
  induction members generalizing st with
  | nil => exact ⟨st, fun r limit ↦ Runner.Yields.done () st, .refl vm st, rfl⟩
  | cons x members ih =>
    obtain ⟨key, v⟩ := x
    obtain ⟨hkey, hmembers⟩ := List.nodup_cons.mp hmembers
    obtain ⟨st₁, hset, hstores, hst₁, hvalue⟩ := h.set key v
    obtain ⟨st₂, hsets, hstores', hvalue'⟩ := ih hst₁ hmembers
    refine ⟨st₂, fun r limit ↦ (hset r limit).bind (hsets r limit), hstores.trans hstores', ?_⟩
    rw [hvalue', hvalue]
    funext name
    rw [Value.member?]
    by_cases hname : key = name
    · subst hname
      rw [if_pos rfl, Value.member?_of_not_mem hkey, Function.update_self]
      rfl
    · rw [if_neg hname, Function.update_of_ne (Ne.symm hname)]

end Unread

end State

/-! ## View-models from data -/

/-- Whether a view-model is neither gone nor disposed, and has no hooks that wait for it to be
mounted. -/
structure World.Alive (w : World C H) (vm : ViewModelId) : Prop where
  gone : (w.viewModel vm).gone = false
  disposed : (w.viewModel vm).disposed = false
  hooks : (w.lifecycle (w.viewModel vm).lifecycle).mounted = []

/-- A view-model that is made from data has its members as fields. -/
theorem Runner.Yields.ofData {members : List (String × Value)}
    (hmembers : (members.map Prod.fst).Nodup) (st : LiveState C H)
    (hdrained : st.graph.Drained) :
    ∃ (vm : ViewModelId) (st' : LiveState C H), (∀ (r : LiveRunner C H) limit,
        r.Yields limit (ViewModelId.ofData (.object members)) st vm st') ∧
      st'.world.Alive vm ∧
      st'.fieldValue vm = (fun name ↦ (Value.member? name members).getD .null) ∧
      st'.world = { st.world with
        viewModels := st'.world.viewModels, ledgers := st'.world.ledgers,
        lifecycles := st'.world.lifecycles } := by
  let vm : ViewModelId := ⟨st.world.viewModels.size⟩
  let st₁ : LiveState C H := st.withWorld st.world.addViewModel.2
  have hvm : st₁.world.viewModel vm =
      ⟨[], ⟨st.world.ledgers.size⟩, ⟨st.world.lifecycles.size⟩, false, false⟩ := by
    simp [st₁, vm, World.addViewModel, World.addLedger, World.addLifecycle, World.viewModel]
  have hlifecycle : st₁.world.lifecycle ⟨st.world.lifecycles.size⟩ = {} := by
    simp [st₁, World.addViewModel, World.addLedger, World.addLifecycle, World.lifecycle]
  have hfield (name : String) : (st₁.world.viewModel vm).field? name = none := by
    rw [hvm]
    rfl
  have hunread : st₁.Unread vm := by
    refine ⟨?_, fun name s hs ↦ ?_, fun name other s hs _ ↦ ?_, hdrained⟩
    · simp [st₁, vm, World.addViewModel, World.addLedger, World.addLifecycle]
    · exact absurd (hs.symm.trans (hfield name)) (Option.some_ne_none s)
    · exact absurd (hs.symm.trans (hfield name)) (Option.some_ne_none s)
  obtain ⟨st', hsets, hstores, hvalue⟩ := hunread.setAll hmembers
  refine ⟨vm, st', fun r limit ↦ ?_, ⟨?_, ?_, ?_⟩, ?_, ?_⟩
  · exact (act World.addViewModel st).bind ((hsets r limit).bind (done vm st'))
  · rw [hstores.viewModel, hvm]
  · rw [hstores.viewModel, hvm]
  · rw [hstores.viewModel, hvm, hstores.world]
    exact congrArg Lifecycle.mounted hlifecycle
  · rw [hvalue]
    funext name
    rw [State.fieldValue, hfield]
  · rw [hstores.world]
    rfl

end LiveMarkup
