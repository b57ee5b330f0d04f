import LiveMarkup.Proofs.Live.Outlook

/-!
# States in order

In a state that code has made from the empty one, every field has a signal of its own, only effects
that exist subscribe to signals, and every view-model has a ledger of its own, whose entries are in
order. `State.Regular` says so for given view-models. It is what makes the effect of a write exact:
the field has the value, no other field has another one (`State.Regular.snapshot_written`), and the
ledger of one view-model can be changed without the others (`State.Regular.ledger?_of_modify`).

Writes, executions and disposals keep a state in order.
-/

namespace LiveMarkup

variable {C H : Type}

namespace Graph

variable {V R : Type}

/-! ## Stopping effects -/

/-- Stops effects one after the other. -/
def stopAll (g : Graph V R) (es : List EffectId) : Graph V R := es.foldl stop g

variable {g : Graph V R} {es : List EffectId} {e : EffectId}

theorem effect_stopAll_of_mem (h : e ∈ es) :
    ((g.stopAll es).effect e).active = false ∧ ((g.stopAll es).effect e).body = none := by
  have hstopped (es : List EffectId) (g : Graph V R)
      (h : (g.effect e).active = false ∧ (g.effect e).body = none) :
      ((g.stopAll es).effect e).active = false ∧ ((g.stopAll es).effect e).body = none := by
    induction es generalizing g with
    | nil => exact h
    | cons e' es ih =>
      refine ih (g.stop e') ?_
      rw [effect_stop]
      split
      · exact ⟨rfl, rfl⟩
      · exact h
  induction es generalizing g with
  | nil => exact absurd h List.not_mem_nil
  | cons e' es ih =>
    by_cases he : e = e'
    · refine hstopped es (g.stop e') ?_
      rw [effect_stop, if_pos he]
      exact ⟨rfl, rfl⟩
    · exact ih ((List.mem_cons.mp h).resolve_left he)

theorem effect_stopAll_of_not_mem (h : e ∉ es) : (g.stopAll es).effect e = g.effect e := by
  induction es generalizing g with
  | nil => rfl
  | cons e' es ih =>
    obtain ⟨he, hrest⟩ := not_or.mp (mt List.mem_cons.mpr h)
    exact (ih hrest).trans ((effect_stop g e' e).trans (if_neg he))

/-- What stopping one effect leaves alone, stopping several does. -/
theorem stopAll_eq {β : Type} (part : Graph V R → β) (h : ∀ g e, part (stop g e) = part g)
    (es : List EffectId) (g : Graph V R) : part (g.stopAll es) = part g := by
  induction es generalizing g with
  | nil => rfl
  | cons e es ih => exact (ih (g.stop e)).trans (h g e)

@[simp] theorem signals_stopAll (g : Graph V R) (es : List EffectId) :
    (g.stopAll es).signals = g.signals := stopAll_eq (fun g ↦ g.signals) (fun _ _ ↦ rfl) es g

@[simp] theorem queue_stopAll (g : Graph V R) (es : List EffectId) :
    (g.stopAll es).queue = g.queue := stopAll_eq (fun g ↦ g.queue) (fun _ _ ↦ rfl) es g

@[simp] theorem current_stopAll (g : Graph V R) (es : List EffectId) :
    (g.stopAll es).current = g.current := stopAll_eq (fun g ↦ g.current) (fun _ _ ↦ rfl) es g

@[simp] theorem flushing_stopAll (g : Graph V R) (es : List EffectId) :
    (g.stopAll es).flushing = g.flushing := stopAll_eq (fun g ↦ g.flushing) (fun _ _ ↦ rfl) es g

@[simp] theorem size_stopAll (g : Graph V R) (es : List EffectId) :
    (g.stopAll es).effects.size = g.effects.size :=
  stopAll_eq (fun g ↦ g.effects.size) size_stop es g

@[simp] theorem queued_stopAll (g : Graph V R) (es : List EffectId) (e : EffectId) :
    ((g.stopAll es).effect e).queued = (g.effect e).queued :=
  stopAll_eq (fun g ↦ (g.effect e).queued) (fun g e' ↦ queued_stop g e' e) es g

@[simp] theorem signal_stopAll [Inhabited V] (g : Graph V R) (es : List EffectId) (s : SignalId) :
    (g.stopAll es).signal s = g.signal s := by
  rw [signal, signals_stopAll, signal]

theorem not_mem_of_isActive_stopAll (h : (g.stopAll es).isActive e = true) : e ∉ es := fun hmem ↦
  Bool.noConfusion ((effect_stopAll_of_mem (g := g) hmem).1.symm.trans h)

theorem Idle.stopAll (h : g.Idle) (es : List EffectId) : (g.stopAll es).Idle where
  queue := (queue_stopAll g es).trans h.queue
  queued e := (queued_stopAll g es e).trans (h.queued e)
  current := (current_stopAll g es).trans h.current
  flushing := (flushing_stopAll g es).trans h.flushing

theorem Flagged.stopAll (h : g.Flagged) (es : List EffectId) : (g.stopAll es).Flagged :=
  fun e he ↦ (queue_stopAll g es).symm ▸ h e (queued_stopAll g es e ▸ he)

/-- Only effects that exist have a body. -/
theorem lt_of_body {b : R} (h : (g.effect e).body = some b) : e.index < g.effects.size := by
  by_contra hlt
  rw [effect_of_not_lt hlt] at h
  exact absurd h.symm (Option.some_ne_none b)

end Graph

/-! ## Ledgers -/

theorem World.viewModel_congr {w w' : World C H} (h : w'.viewModels = w.viewModels) :
    w'.viewModel = w.viewModel := by
  funext vm
  rw [viewModel, h, viewModel]

theorem World.ledgerOf_eq (w : World C H) (vm : ViewModelId) :
    w.ledgerOf vm = (w.ledger? vm).getD default := by
  rw [ledgerOf, ledger, ledger?, Array.getD_eq_getD_getElem?]

namespace State

/-- Declaring a field leaves every view-model its ledger. -/
theorem ledger_declare (st : LiveState C H) (vm vm' : ViewModelId) (name : String) :
    ((st.declare vm name).2.world.viewModel vm').ledger = (st.world.viewModel vm').ledger := by
  by_cases hvm : vm' = vm
  · subst hvm
    rw [(Stores.declare vm' st name).viewModel]
  · rw [viewModel_declare_of_ne hvm]

theorem size_viewModels_declare (st : LiveState C H) (vm : ViewModelId) (name : String) :
    (st.declare vm name).2.world.viewModels.size = st.world.viewModels.size := by
  cases h : (st.world.viewModel vm).field? name with
  | some s => rw [declare_of_some h]
  | none =>
    rw [declare_of_none h]
    exact Array.size_modify

/-! ## Regular states -/

/-- Whether, as far as given view-models are concerned, every field has a signal of its own, only
effects that exist subscribe, and every view-model has a ledger of its own, which is in order. -/
structure Regular (known : List ViewModelId) (st : LiveState C H) : Prop where
  lt : ∀ w ∈ known, w.index < st.world.viewModels.size
  signal : ∀ w ∈ known, ∀ name s, (st.world.viewModel w).field? name = some s →
    s.index < st.graph.signals.size
  injective : ∀ w ∈ known, ∀ w' ∈ known, ∀ name name' s,
    (st.world.viewModel w).field? name = some s →
      (st.world.viewModel w').field? name' = some s → w = w' ∧ name = name'
  subscribers : ∀ s, ∀ e ∈ (st.graph.signal s).subscribers, e.index < st.graph.effects.size
  ledger : ∀ w ∈ known, ∃ l, st.world.ledger? w = some l ∧ l.Sound
  apart : ∀ w ∈ known, ∀ w' ∈ known,
    (st.world.viewModel w).ledger = (st.world.viewModel w').ledger → w = w'

namespace Regular

variable {known : List ViewModelId} {st st' : LiveState C H} {vm w : ViewModelId} {name : String}

theorem sound (h : st.Regular known) (hw : w ∈ known) : (st.world.ledgerOf w).Sound := by
  obtain ⟨l, hl, hsound⟩ := h.ledger w hw
  rwa [World.ledgerOf_of_ledger? hl]

/-- A field that is there is seen. -/
theorem isSome_snapshot (h : st.Regular known) (hw : w ∈ known) {s : SignalId}
    (hs : (st.world.viewModel w).field? name = some s) : (st.snapshot w name).isSome :=
  State.isSome_snapshot.mpr ⟨s, hs, h.signal w hw name s hs⟩

/-! ### Writes -/

/-- The fields once one is declared: it has a signal, and every other has the one it had. -/
theorem field?_declare (h : st.Regular known) (hvm : vm ∈ known) (name : String) (w : ViewModelId)
    (other : String) : ((st.declare vm name).2.world.viewModel w).field? other =
      if w = vm ∧ other = name then some (st.declare vm name).1
      else (st.world.viewModel w).field? other := by
  by_cases hw : w = vm
  · subst hw
    rw [State.field?_declare (h.lt w hvm)]
    simp only [true_and]
  · rw [viewModel_declare_of_ne hw, if_neg fun hc ↦ hw hc.1]

/-- Only the field itself has the signal. -/
theorem eq_of_field?_declare (h : st.Regular known) (hvm : vm ∈ known) (hw : w ∈ known)
    {other : String} (hs : (st.world.viewModel w).field? other = some (st.declare vm name).1) :
    w = vm ∧ other = name := by
  cases hname : (st.world.viewModel vm).field? name with
  | some s =>
    rw [declare_of_some hname] at hs
    exact h.injective w hw vm hvm other name s hs hname
  | none =>
    rw [declare_of_none hname] at hs
    exact absurd (h.signal w hw other _ hs) (Nat.lt_irrefl _)

theorem lt_declare (h : st.Regular known) (hvm : vm ∈ known) (name : String) :
    (st.declare vm name).1.index < (st.declare vm name).2.graph.signals.size := by
  cases hname : (st.world.viewModel vm).field? name with
  | some s =>
    rw [declare_of_some hname]
    exact h.signal vm hvm name s hname
  | none =>
    rw [declare_of_none hname, Graph.size_newSignal]
    exact Nat.lt_succ_self _

/-- **A write is exact.** The field that is written has the value, and every other field of every
view-model is as it was. -/
theorem snapshot_written (h : st.Regular known) (hvm : vm ∈ known) (hw : w ∈ known) (name : String)
    (value : Value) : (st.written vm name value).snapshot w =
      if w = vm then Function.update (st.snapshot vm) name (some value) else st.snapshot w := by
  funext other
  have hfield := h.field?_declare hvm name w other
  by_cases hself : w = vm ∧ other = name
  · obtain ⟨rfl, rfl⟩ := hself
    rw [if_pos rfl, Function.update_self]
    rw [if_pos ⟨rfl, rfl⟩] at hfield
    refine snapshot_eq_some.mpr ⟨_, hfield, ?_, ?_⟩
    · rw [graph_written, Graph.size_signals_write]
      exact h.lt_declare hvm other
    · rw [graph_written]
      exact Graph.value_write_self _ (h.lt_declare hvm other) value
  · -- Another field has the signal that it had, and that is not the one that is written.
    have hold : (if w = vm then Function.update (st.snapshot vm) name (some value)
        else st.snapshot w) other = st.snapshot w other := by
      split
      · rename_i heq
        subst heq
        exact Function.update_of_ne (fun he ↦ hself ⟨rfl, he⟩) _ _
      · rfl
    rw [hold]
    rw [if_neg hself] at hfield
    cases hs : (st.world.viewModel w).field? other with
    | none =>
      rw [hs] at hfield
      rw [snapshot, snapshot, hs, world_written, hfield]
      rfl
    | some s =>
      refine snapshot_written_of_ne hs (h.signal w hw other s hs) (fun hc ↦ hself ?_) value
      exact h.eq_of_field?_declare hvm hw (hc ▸ hs)

/-- Whoever subscribes to a signal after a write did before. -/
theorem of_mem_subscribers_written {s : SignalId} {e : EffectId} {value : Value}
    (he : e ∈ ((st.written vm name value).graph.signal s).subscribers) :
    e ∈ (st.graph.signal s).subscribers := by
  rw [graph_written] at he
  have he := Graph.of_mem_subscribers_write he
  rcases graph_declare st vm name with hgraph | ⟨-, hgraph⟩
  · rwa [hgraph] at he
  · rw [hgraph, Graph.signal_newSignal] at he
    split at he
    · exact absurd he List.not_mem_nil
    · exact he

/-- A write enters nothing into a ledger. -/
theorem ledgerOf_written (st : LiveState C H) (vm w : ViewModelId) (name : String) (value : Value) :
    (st.written vm name value).world.ledgerOf w = st.world.ledgerOf w := by
  have hledgers : (st.declare vm name).2.world.ledgers = st.world.ledgers := by rw [world_declare]
  rw [World.ledgerOf_eq, World.ledgerOf_eq, World.ledger?, World.ledger?, world_written,
    ledger_declare, hledgers]

theorem written (h : st.Regular known) (hvm : vm ∈ known) (name : String) (value : Value) :
    (st.written vm name value).Regular known := by
  have hsize : (st.declare vm name).2.graph.effects.size = st.graph.effects.size :=
    part_declare (fun g ↦ g.effects.size) (fun _ _ ↦ rfl) st vm name
  have hledgers : (st.declare vm name).2.world.ledgers = st.world.ledgers := by rw [world_declare]
  refine ⟨fun w hw ↦ ?_, fun w hw other s hs ↦ ?_, fun w hw w' hw' other other' s hs hs' ↦ ?_,
    fun s e he ↦ ?_, fun w hw ↦ ?_, fun w hw w' hw' heq ↦ ?_⟩
  · rw [world_written, size_viewModels_declare]
    exact h.lt w hw
  · rw [world_written, h.field?_declare hvm] at hs
    rw [graph_written, Graph.size_signals_write]
    split at hs
    · obtain rfl := Option.some.inj hs
      exact h.lt_declare hvm name
    · exact Nat.lt_of_lt_of_le (h.signal w hw other s hs) (size_declare st vm name)
  · -- A field that is declared has a signal that no other field has.
    rw [world_written, h.field?_declare hvm] at hs hs'
    split at hs <;> split at hs'
    · rename_i hother hother'
      exact ⟨hother.1.trans hother'.1.symm, hother.2.trans hother'.2.symm⟩
    · rename_i hother _
      obtain rfl := Option.some.inj hs
      obtain ⟨rfl, rfl⟩ := h.eq_of_field?_declare hvm hw' hs'
      exact hother
    · rename_i hother
      obtain rfl := Option.some.inj hs'
      obtain ⟨rfl, rfl⟩ := h.eq_of_field?_declare hvm hw hs
      exact ⟨hother.1.symm, hother.2.symm⟩
    · exact h.injective w hw w' hw' other other' s hs hs'
  · rw [graph_written, Graph.size_write, hsize]
    exact h.subscribers s e (of_mem_subscribers_written he)
  · obtain ⟨l, hl, hsound⟩ := h.ledger w hw
    refine ⟨l, ?_, hsound⟩
    rw [World.ledger?, world_written, ledger_declare, hledgers]
    exact hl
  · rw [world_written, ledger_declare, ledger_declare] at heq
    exact h.apart w hw w' hw' heq

/-- A state with the fields of one in order is in order, if only effects that exist subscribe, and
the ledgers are in order. -/
theorem of_viewModels (h : st.Regular known)
    (hviewModels : st'.world.viewModels = st.world.viewModels)
    (hsignals : st'.graph.signals.size = st.graph.signals.size)
    (hsubscribers : ∀ s, ∀ e ∈ (st'.graph.signal s).subscribers, e.index < st'.graph.effects.size)
    (hledger : ∀ w ∈ known, ∃ l, st'.world.ledger? w = some l ∧ l.Sound) : st'.Regular known := by
  have hviewModel := World.viewModel_congr hviewModels
  refine ⟨fun w hw ↦ hviewModels ▸ h.lt w hw, fun w hw other s hs ↦ ?_,
    fun w hw w' hw' other other' s hs hs' ↦ ?_, hsubscribers, hledger,
    fun w hw w' hw' heq ↦ ?_⟩
  · rw [hviewModel] at hs
    rw [hsignals]
    exact h.signal w hw other s hs
  · rw [hviewModel] at hs hs'
    exact h.injective w hw w' hw' other other' s hs hs'
  · rw [hviewModel] at heq
    exact h.apart w hw w' hw' heq

/-- Work of effects keeps a state in order. -/
theorem of_reworks {es : List EffectId} (h : st.Regular known) (hworks : st.Reworks es st') :
    st'.Regular known := by
  refine h.of_viewModels (by rw [hworks.world]) hworks.signals (fun s e he ↦ ?_) fun w hw ↦ ?_
  · -- Whoever subscribes did so before, or has run and so exists.
    rw [hworks.size]
    rcases hworks.readers s e he with he | ⟨-, u, hbody, -⟩
    · exact h.subscribers s e he
    · exact Graph.lt_of_body hbody
  · obtain ⟨l, hl, hsound⟩ := h.ledger w hw
    refine ⟨l, ?_, hsound⟩
    rw [hworks.world]
    exact hl

/-! ### Changes to one ledger -/

/-- The ledgers after a change to that of one view-model. -/
theorem ledger?_of_modify (h : st.Regular known) (hvm : vm ∈ known) (hw : w ∈ known)
    {f : Ledger (Binding C) → Ledger (Binding C)}
    (hviewModels : st'.world.viewModel = st.world.viewModel)
    (hledgers : st'.world.ledgers =
      st.world.ledgers.modify (st.world.viewModel vm).ledger.index f) :
    st'.world.ledger? w =
      if w = vm then some (f (st.world.ledgerOf vm)) else st.world.ledger? w := by
  rw [World.ledger?, hviewModels, hledgers, Array.getElem?_modify]
  by_cases heq : w = vm
  · subst heq
    obtain ⟨l, hl, -⟩ := h.ledger w hw
    rw [if_pos rfl, if_pos rfl, World.ledgerOf_of_ledger? hl]
    exact congrArg (Option.map f) hl
  · rw [if_neg heq, if_neg]
    · rfl
    · intro hindex
      exact heq (h.apart w hw vm hvm (congrArg LedgerId.mk hindex.symm))

theorem ledgerOf_of_modify (h : st.Regular known) (hvm : vm ∈ known) (hw : w ∈ known)
    {f : Ledger (Binding C) → Ledger (Binding C)}
    (hviewModels : st'.world.viewModel = st.world.viewModel)
    (hledgers : st'.world.ledgers =
      st.world.ledgers.modify (st.world.viewModel vm).ledger.index f) :
    st'.world.ledgerOf w =
      if w = vm then f (st.world.ledgerOf vm) else st.world.ledgerOf w := by
  rw [World.ledgerOf_eq, h.ledger?_of_modify hvm hw hviewModels hledgers]
  split
  · rfl
  · exact (World.ledgerOf_eq _ _).symm

/-- A change to the ledger of one view-model that leaves it in order keeps a state in order, if only
effects that exist subscribe. -/
theorem of_modify (h : st.Regular known) (hvm : vm ∈ known)
    {f : Ledger (Binding C) → Ledger (Binding C)}
    (hf : ∀ l : Ledger (Binding C), l.Sound → (f l).Sound)
    (hviewModels : st'.world.viewModels = st.world.viewModels)
    (hledgers : st'.world.ledgers = st.world.ledgers.modify (st.world.viewModel vm).ledger.index f)
    (hsignals : st'.graph.signals.size = st.graph.signals.size)
    (hsubscribers : ∀ s, ∀ e ∈ (st'.graph.signal s).subscribers,
      e.index < st'.graph.effects.size) : st'.Regular known := by
  have hviewModel := World.viewModel_congr hviewModels
  refine h.of_viewModels hviewModels hsignals hsubscribers fun w hw ↦ ?_
  rw [h.ledger?_of_modify hvm hw hviewModel hledgers]
  split
  · exact ⟨_, rfl, hf _ (h.sound hvm)⟩
  · exact h.ledger w hw

/-- The ledgers once effects are installed for a view-model. -/
theorem ledgerOf_of_installs (h : st.Regular known) (hvm : vm ∈ known) (hw : w ∈ known)
    {holes : List (EffectId × Upkeep)} (hinstalls : st.Installs vm holes st') :
    st'.world.ledgerOf w = if w = vm then
      (st.world.ledgerOf vm).registerAll (effectBindings holes) else st.world.ledgerOf w := by
  refine h.ledgerOf_of_modify (f := (Ledger.registerAll · (effectBindings holes))) hvm hw
    (funext hinstalls.viewModel_eq) ?_
  rw [hinstalls.world]

/-- Drawing a picture keeps a state in order. -/
theorem of_installs (h : st.Regular known) (hvm : vm ∈ known) {holes : List (EffectId × Upkeep)}
    (hinstalls : st.Installs vm holes st') (hcurrent : st.graph.current = none) :
    st'.Regular known := by
  have hviewModels : st'.world.viewModels = st.world.viewModels := by rw [hinstalls.world]
  have hledgers : st'.world.ledgers = st.world.ledgers.modify
      (st.world.viewModel vm).ledger.index (Ledger.registerAll · (effectBindings holes)) := by
    rw [hinstalls.world]
  refine h.of_modify hvm (fun l hl ↦ hl.registerAll _) hviewModels hledgers hinstalls.signals
    fun s e he ↦ ?_
  rcases hinstalls.readers s e he with he | ⟨x, hx, rfl, -⟩ | he
  · exact Nat.lt_of_lt_of_le (h.subscribers s e he) hinstalls.size
  · exact (hinstalls.range x hx).2
  · exact absurd (he.symm.trans hcurrent) (Option.some_ne_none e)

end Regular

/-- No effect runs or waits to run once the queue is worked off after a write. -/
theorem Reworks.idle {es : List EffectId} {st st' : LiveState C H} {vm : ViewModelId}
    {name : String} {value : Value} (h : (st.written vm name value).Reworks es st')
    (hidle : st.graph.Idle) (hflagged : st'.graph.Flagged) (hqueue : st'.graph.queue = []) :
    st'.graph.Idle where
  queue := hqueue
  queued e := Bool.eq_false_iff.mpr fun he ↦ List.not_mem_nil (hqueue ▸ hflagged e he)
  current := h.current.trans ((current_written st vm name value).trans hidle.current)
  flushing := h.flushing.trans ((flushing_written st vm name value).trans hidle.flushing)

end State

/-! ## Disposal -/

namespace State

/-- The state in which effects are stopped and their entries removed from the ledger of a
view-model. -/
def disposed (st : LiveState C H) (vm : ViewModelId) (es : List EffectId) (ids : List BindingId) :
    LiveState C H :=
  ⟨st.graph.stopAll es, st.world.modifyLedger (st.world.viewModel vm).ledger (·.remove ids)⟩

/-- Disposal keeps a state in order. -/
theorem Regular.disposed {known : List ViewModelId} {st : LiveState C H} {vm : ViewModelId}
    (h : st.Regular known) (hvm : vm ∈ known) (es : List EffectId) (ids : List BindingId) :
    (st.disposed vm es ids).Regular known := by
  refine h.of_modify hvm (fun l hl ↦ hl.remove ids) rfl rfl
    (congrArg Array.size (Graph.signals_stopAll ..)) fun s e he ↦ ?_
  have he : e ∈ ((st.graph.stopAll es).signal s).subscribers := he
  rw [Graph.signal_stopAll] at he
  exact Nat.lt_of_lt_of_eq (h.subscribers s e he) (Graph.size_stopAll ..).symm

/-- Disposal does not change what the fields are. -/
theorem snapshot_disposed (st : LiveState C H) (vm : ViewModelId) (es : List EffectId)
    (ids : List BindingId) (w : ViewModelId) :
    (st.disposed vm es ids).snapshot w = st.snapshot w :=
  snapshot_congr rfl (congrArg Array.size (Graph.signals_stopAll ..))
    fun s ↦ congrArg Signal.value (Graph.signal_stopAll st.graph es s)

/-- The ledgers once effects for a view-model are stopped and removed. -/
theorem Regular.ledgerOf_disposed {known : List ViewModelId} {st : LiveState C H}
    {vm w : ViewModelId} (h : st.Regular known) (hvm : vm ∈ known) (hw : w ∈ known)
    (es : List EffectId) (ids : List BindingId) : (st.disposed vm es ids).world.ledgerOf w =
      if w = vm then (st.world.ledgerOf vm).remove ids else st.world.ledgerOf w :=
  h.ledgerOf_of_modify (f := (·.remove ids)) hvm hw rfl rfl

end State

namespace Runner.Yields

variable {r : LiveRunner C H} {limit : Nat}

/-- Effects are undone by stopping them. -/
theorem disposeAll {owned : List (BindingId × Binding C)} {es : List EffectId}
    (howned : owned.map Prod.snd = es.map Binding.effect) (st : LiveState C H) :
    r.Yields limit (Disposer.disposeAll owned) st () (st.withGraph (st.graph.stopAll es)) := by
  induction owned generalizing es st with
  | nil =>
    obtain rfl : es = [] := List.map_eq_nil_iff.mp howned.symm
    exact done () st
  | cons x owned ih =>
    obtain ⟨b, binding⟩ := x
    cases es with
    | nil => exact absurd howned (List.cons_ne_nil _ _)
    | cons e es =>
      obtain ⟨hfirst, hrest⟩ := List.cons.inj howned
      obtain rfl : binding = .effect e := hfirst
      have hstop : r.Yields limit (Live.stop e) st () (st.withGraph (st.graph.stop e)) := rfl
      exact hstop.bind (ih hrest _)

/-- Disposing what consists of effects stops them and removes their entries. -/
theorem dispose {d : Disposer C} {es : List EffectId}
    (howned : d.owned.map Prod.snd = es.map Binding.effect) (st : LiveState C H) :
    r.Yields limit d.dispose st () (st.disposed d.vm es d.ids) :=
  Yields.bind (holding (disposeAll howned _)) (change _ _)

end Runner.Yields

end LiveMarkup
