import LiveMarkup.Proofs.Live.Evaluation
import LiveMarkup.Proofs.Node.Operations

/-!
# What keeps nodes up to date

The two directives of this library install effects that keep a text or an attribute equal to an
expression; `Upkeep` is what such an effect keeps. A run of the effect reads the fields it mentions
and puts the value in its place, and does nothing else: the graph only gains subscribers
(`Graph.Gains`), and nothing in the world changes but the node. So runs of such effects can be
followed exactly, `State.rerun` for a later run and `State.launch` for the first.
-/

namespace LiveMarkup

variable {C H : Type}

/-! ## Graphs that gain subscribers -/

/-- Whether a graph differs from another only in that more effects subscribe to signals. -/
structure Graph.Gains {V R : Type} [Inhabited V] (g g' : Graph V R) : Prop where
  effect : ∀ e, g'.effect e = g.effect e
  size : g'.effects.size = g.effects.size
  queue : g'.queue = g.queue
  current : g'.current = g.current
  flushing : g'.flushing = g.flushing
  signals : g'.signals.size = g.signals.size
  value : ∀ s, g'.value s = g.value s
  subscribers : ∀ s, (g.signal s).subscribers ⊆ (g'.signal s).subscribers

namespace Graph.Gains

variable {V R : Type} [Inhabited V] {g g' g'' : Graph V R}

theorem refl (g : Graph V R) : g.Gains g :=
  ⟨fun _ ↦ rfl, rfl, rfl, rfl, rfl, rfl, fun _ ↦ rfl, fun _ ↦ List.Subset.refl _⟩

theorem trans (h : g.Gains g') (h' : g'.Gains g'') : g.Gains g'' where
  effect e := (h'.effect e).trans (h.effect e)
  size := h'.size.trans h.size
  queue := h'.queue.trans h.queue
  current := h'.current.trans h.current
  flushing := h'.flushing.trans h.flushing
  signals := h'.signals.trans h.signals
  value s := (h'.value s).trans (h.value s)
  subscribers s := List.Subset.trans (h.subscribers s) (h'.subscribers s)

theorem track (g : Graph V R) (s : SignalId) : g.Gains (g.track s) where
  effect := effect_track g s
  size := congrArg Array.size (effects_track g s)
  queue := queue_track g s
  current := current_track g s
  flushing := flushing_track g s
  signals := size_track g s
  value := value_track g s
  subscribers s' := (signal_track g s s').2

theorem isActive (h : g.Gains g') (e : EffectId) : g'.isActive e = g.isActive e := by
  rw [Graph.isActive, h.effect, Graph.isActive]

theorem foldl_track (g : Graph V R) (ss : List SignalId) : g.Gains (ss.foldl Graph.track g) := by
  induction ss generalizing g with
  | nil => exact refl g
  | cons s ss ih => exact (track g s).trans (ih (g.track s))

/-- Between its beginning and its end a run may gain subscribers; the body goes back. -/
theorem run {e : EffectId} {b : R} (he : g.isActive e = true) (hb : (g.effect e).body = some b)
    (h : (g.beginRun e).Gains g') : g.Gains (g'.endRun e g.current (some b)) where
  effect e' := by
    have hactive : g'.isActive e = true := by rw [h.isActive, isActive_beginRun, he]
    rw [effect_endRun, h.effect, h.effect, effect_beginRun, effect_beginRun, if_pos rfl]
    split
    · rename_i hc
      rw [hc.1, ← hb]
    · rename_i hc
      rw [if_neg fun hee ↦ hc ⟨hee, hactive⟩]
  size := by rw [size_endRun, h.size, size_beginRun]
  queue := (queue_endRun ..).trans h.queue
  current := current_endRun ..
  flushing := (flushing_endRun ..).trans h.flushing
  signals := (congrArg Array.size (signals_endRun ..)).trans h.signals
  value s := by
    rw [Graph.value, signal, signals_endRun]
    exact h.value s
  subscribers s := by
    rw [signal, signal, signals_endRun]
    exact h.subscribers s

end Graph.Gains

/-- The current effect subscribes to all signals that are read. -/
theorem Graph.mem_subscribers_foldl_track {V R : Type} [Inhabited V] {g : Graph V R}
    {e : EffectId} (he : g.current = some e) {ss : List SignalId} {s : SignalId} (hs : s ∈ ss)
    (hlt : s.index < g.signals.size) : e ∈ ((ss.foldl Graph.track g).signal s).subscribers := by
  induction ss generalizing g with
  | nil => exact absurd hs List.not_mem_nil
  | cons s' ss ih =>
    have hcurrent : (g.track s').current = some e := (current_track g s').trans he
    have hlt' : s.index < (g.track s').signals.size := (size_track g s').symm ▸ hlt
    rcases List.mem_cons.mp hs with rfl | hs
    · exact (Gains.foldl_track (g.track s) ss).subscribers s (mem_subscribers_track hlt he)
    · exact ih hcurrent hs hlt'

theorem Graph.of_mem_subscribers_foldl_track {V R : Type} [Inhabited V] {g : Graph V R}
    {e : EffectId} {ss : List SignalId} {s : SignalId}
    (h : e ∈ ((ss.foldl Graph.track g).signal s).subscribers) :
    e ∈ (g.signal s).subscribers ∨ g.current = some e ∧ s ∈ ss := by
  induction ss generalizing g with
  | nil => exact .inl h
  | cons s' ss ih =>
    rcases ih h with h | ⟨hcurrent, hs⟩
    · refine (of_mem_subscribers_track h).imp_right fun ⟨hcurrent, hs⟩ ↦ ⟨hcurrent, ?_⟩
      exact hs ▸ List.mem_cons_self
    · exact .inr ⟨(current_track g s').symm.trans hcurrent, List.mem_cons_of_mem s' hs⟩

/-! ## Upkeep -/

/-- What an effect of this library keeps up to date. -/
inductive Upkeep where
  /-- The text of a node. -/
  | text (vm : ViewModelId) (node : NodeId) (expression : String)
  /-- An attribute of a node. -/
  | attr (vm : ViewModelId) (node : NodeId) (name expression : String)
  /-- An attribute of a node that is equal to an interpolated text. -/
  | interpolatedAttr (vm : ViewModelId) (node : NodeId) (name template : String)

namespace Upkeep

/-- The body of the effect. -/
def routine : Upkeep → Routine C
  | .text vm node expression => .text vm node expression
  | .attr vm node name expression => .attr vm node name expression
  | .interpolatedAttr vm node name template => .interpolatedAttr vm node name template

/-- The view-model that is read. -/
def vm : Upkeep → ViewModelId
  | .text vm _ _ | .attr vm _ _ _ | .interpolatedAttr vm _ _ _ => vm

/-- The node that is kept up to date. -/
def node : Upkeep → NodeId
  | .text _ node _ | .attr _ node _ _ | .interpolatedAttr _ node _ _ => node

/-- The fields that are read. -/
def mentioned : Upkeep → List String
  | .text _ _ expression | .attr _ _ _ expression => Expression.mentioned expression.toList
  | .interpolatedAttr _ _ _ template => Interpolation.mentioned template.toList

/-- What is put in its place, where the fields have the given values. -/
def value (field : String → Value) : Upkeep → String
  | .text _ _ expression | .attr _ _ _ expression => Expression.textWith field expression.toList
  | .interpolatedAttr _ _ _ template =>
    String.ofList (Interpolation.textWith field template.toList)

/-- Puts a text in the place that is kept up to date. -/
def put (text : String) (s : NodeStore) : Upkeep → NodeStore
  | .text _ node _ => s.setTextContent node text
  | .attr _ node name _ | .interpolatedAttr _ node name _ => s.setAttribute node name text

/-- Whether the structure of trees is left alone where the node is of a kind. -/
def KeepsShape (kind : NodeKind) : Upkeep → Prop
  | .text .. => kind.isContainer = false
  | .attr .. | .interpolatedAttr .. => True

/-- A text that is put in its place changes the one node only. -/
theorem agrees_put {u : Upkeep} {s : NodeStore} (h : u.KeepsShape (s.get u.node).kind)
    (text : String) : s.Agrees id [u.node] (u.put text s) := by
  cases u with
  | text vm node expression =>
    have h : (s.get node).kind.isContainer = false := h
    rw [put, NodeStore.setTextContent_of_text h]
    exact s.agrees_modify node _
  | attr vm node name expression => exact s.agrees_modify node _
  | interpolatedAttr vm node name template => exact s.agrees_modify node _

theorem agrees_skeleton_put {u : Upkeep} {s : NodeStore} (h : u.KeepsShape (s.get u.node).kind)
    (text : String) : s.Agrees Node.skeleton [] (u.put text s) := by
  cases u with
  | text vm node expression =>
    have h : (s.get node).kind.isContainer = false := h
    rw [put, NodeStore.setTextContent_of_text h]
    exact s.agrees_modify_of node fun _ ↦ rfl
  | attr vm node name expression => exact s.agrees_modify_of node fun _ ↦ rfl
  | interpolatedAttr vm node name template => exact s.agrees_modify_of node fun _ ↦ rfl

theorem value_congr {field field' : String → Value} {u : Upkeep}
    (h : ∀ name ∈ u.mentioned, field name = field' name) : u.value field = u.value field' := by
  cases u with
  | text vm node expression => exact Expression.textWith_congr h
  | attr vm node name expression => exact Expression.textWith_congr h
  | interpolatedAttr vm node name template =>
    exact congrArg String.ofList (Interpolation.textWith_congr h)

end Upkeep

/-- What keeps an attribute up to date, if the request is in order. -/
theorem Descriptor.attributeRoutine_eq_ok {d : Descriptor} {vm : ViewModelId} {n : NodeId}
    {b : Routine C} (h : d.attributeRoutine vm n = .ok b) :
    ∃ name text, b = .interpolatedAttr vm n name text ∨ b = .attr vm n name text := by
  have hnamed {name expression : String}
      (h : (if name.isEmpty then throw "attribute name is empty"
        else if d.interpolate then return .interpolatedAttr vm n name expression
        else return .attr vm n name expression) = Except.ok (ε := String) b) :
      ∃ name text, b = .interpolatedAttr vm n name text ∨ b = .attr vm n name text := by
    split at h
    · contradiction
    · split at h
      · exact ⟨name, expression, .inl (Except.ok.inj h).symm⟩
      · exact ⟨name, expression, .inr (Except.ok.inj h).symm⟩
  rw [attributeRoutine] at h
  cases hattr : d.attrName with
  | some name =>
    rw [hattr] at h
    exact hnamed h
  | none =>
    rw [hattr] at h
    cases hsplit : splitColon? d.expression.toList with
    | some x =>
      rw [hsplit] at h
      exact hnamed h
    | none =>
      rw [hsplit] at h
      contradiction

/-- Whether a directive, bound to a node for a view-model, keeps that up to date. -/
def Application.Keeps (a : Application C) (vm : ViewModelId) (node : NodeId) (u : Upkeep) : Prop :=
  match a.directive.behaviour with
  | .text => u = .text vm node a.descriptor.expression
  | .attr => a.descriptor.attributeRoutine (C := C) vm node = .ok u.routine
  | .client _ => False

namespace State

/-- The state after the code of an effect, without the effect around it. -/
def keep (st : LiveState C H) (u : Upkeep) : LiveState C H :=
  if (st.world.viewModel u.vm).gone then st
  else (st.trackAll (st.signalsOf u.vm u.mentioned)).withWorld
    (st.world.modifyNodes fun s ↦ u.put (u.value (st.fieldValue u.vm)) s)

/-- The state after a run of an effect. -/
def rerun (st : LiveState C H) (e : EffectId) (u : Upkeep) : LiveState C H :=
  let st₁ := (st.withGraph (st.graph.beginRun e)).keep u
  st₁.withGraph (st₁.graph.endRun e st.graph.current (some u.routine))

/-- The state after the first run of a new effect. -/
def launch (st : LiveState C H) (u : Upkeep) : LiveState C H :=
  (st.withGraph (st.graph.newEffect u.routine).2).rerun (st.graph.newEffect u.routine).1 u

theorem gains_keep (st : LiveState C H) (u : Upkeep) : st.graph.Gains (st.keep u).graph := by
  unfold keep
  split
  · exact Graph.Gains.refl _
  · exact Graph.Gains.foldl_track _ _

variable {st : LiveState C H} {e : EffectId} {u : Upkeep}

theorem gains_rerun (he : st.graph.isActive e = true)
    (hb : (st.graph.effect e).body = some u.routine) :
    st.graph.Gains (st.rerun e u).graph :=
  Graph.Gains.run he hb (gains_keep (st.withGraph (st.graph.beginRun e)) u)

theorem gains_launch (st : LiveState C H) (u : Upkeep) :
    (st.graph.newEffect u.routine).2.Gains (st.launch u).graph := by
  have heffect := st.graph.effect_newEffect_self (u.routine : Routine C)
  let st₁ : LiveState C H := st.withGraph (st.graph.newEffect u.routine).2
  have hactive : st₁.graph.isActive (st.graph.newEffect (u.routine : Routine C)).1 = true :=
    congrArg Effect.active heffect
  exact gains_rerun hactive (congrArg Effect.body heffect)

/-- What a run does to the nodes. -/
theorem world_rerun (hgone : (st.world.viewModel u.vm).gone = false) (e : EffectId) :
    (st.rerun e u).world =
      st.world.modifyNodes fun s ↦ u.put (u.value (st.fieldValue u.vm)) s := by
  have hkeep : (st.withGraph (st.graph.beginRun e)).keep u = _ :=
    if_neg (Bool.eq_false_iff.mp hgone)
  rw [rerun, hkeep]
  rfl

/-- The effect of a view-model that is gone does nothing to the nodes. -/
theorem world_rerun_of_gone (hgone : (st.world.viewModel u.vm).gone = true) (e : EffectId) :
    (st.rerun e u).world = st.world := by
  have hkeep : (st.withGraph (st.graph.beginRun e)).keep u = _ := if_pos hgone
  rw [rerun, hkeep]
  rfl

/-- A run subscribes the effect to the fields it mentions. -/
theorem mem_subscribers_rerun (hgone : (st.world.viewModel u.vm).gone = false) {s : SignalId}
    (hs : s ∈ st.signalsOf u.vm u.mentioned) (hlt : s.index < st.graph.signals.size)
    (e : EffectId) : e ∈ ((st.rerun e u).graph.signal s).subscribers := by
  have hkeep : (st.withGraph (st.graph.beginRun e)).keep u = _ :=
    if_neg (Bool.eq_false_iff.mp hgone)
  rw [rerun, hkeep, graph_withGraph, Graph.signal, Graph.signals_endRun]
  exact Graph.mem_subscribers_foldl_track (g := st.graph.beginRun e) rfl hs hlt

/-- A run subscribes nobody but the effect, and to nothing but the fields it mentions. -/
theorem of_mem_subscribers_rerun {s : SignalId} {e' : EffectId}
    (h : e' ∈ ((st.rerun e u).graph.signal s).subscribers) :
    e' ∈ (st.graph.signal s).subscribers ∨ e' = e ∧ s ∈ st.signalsOf u.vm u.mentioned := by
  rw [rerun, graph_withGraph, Graph.signal, Graph.signals_endRun, keep] at h
  split at h
  · exact .inl h
  · rcases Graph.of_mem_subscribers_foldl_track (g := st.graph.beginRun e) h with h | ⟨he, hs⟩
    · exact .inl h
    · exact .inr ⟨(Option.some.inj he).symm, hs⟩

/-- The world after the first run of a new effect. -/
theorem world_launch (st : LiveState C H) (u : Upkeep) :
    (st.launch u).world =
      if (st.world.viewModel u.vm).gone then st.world
      else st.world.modifyNodes fun s ↦ u.put (u.value (st.fieldValue u.vm)) s := by
  let st₁ : LiveState C H := st.withGraph (st.graph.newEffect u.routine).2
  split
  · rename_i hgone
    have hgone : (st₁.world.viewModel u.vm).gone = true := hgone
    exact world_rerun_of_gone hgone _
  · rename_i hgone
    have hgone : (st₁.world.viewModel u.vm).gone = false := Bool.eq_false_iff.mpr hgone
    exact world_rerun hgone _

end State

/-! ## Runs -/

namespace Runner.Yields

variable {r : LiveRunner C H} {limit : Nat}

theorem unlessGone {vm : ViewModelId} {p : Live C H Unit} {st st₁ : LiveState C H}
    (hgone : (st.world.viewModel vm).gone = false) (h : r.Yields limit p st () st₁) :
    r.Yields limit (vm.unlessGone p) st () st₁ := by
  refine (ask (fun w ↦ (w.viewModel vm).gone) st).bind ?_
  rw [hgone]
  exact h

theorem unlessGone_of_gone {vm : ViewModelId} {st : LiveState C H}
    (hgone : (st.world.viewModel vm).gone = true) (p : Live C H Unit) :
    r.Yields limit (vm.unlessGone p) st () st := by
  refine (ask (fun w ↦ (w.viewModel vm).gone) st).bind ?_
  rw [hgone]
  exact done () st

/-- The code of an effect does what keeps its place up to date. -/
theorem script (u : Upkeep) (st : LiveState C H) :
    r.Yields limit (u.routine : Routine C).script st () (st.keep u) := by
  rw [State.keep]
  split
  · rename_i hgone
    cases u with
    | text vm node expression => exact unlessGone_of_gone hgone _
    | attr vm node name expression => exact unlessGone_of_gone hgone _
    | interpolatedAttr vm node name template => exact unlessGone_of_gone hgone _
  · rename_i hgone
    rw [Bool.not_eq_true] at hgone
    cases u with
    | text vm node expression =>
      exact unlessGone hgone ((evaluateText vm _ st).bind (edit _ _))
    | attr vm node name expression =>
      exact unlessGone hgone ((evaluateText vm _ st).bind (edit _ _))
    | interpolatedAttr vm node name template =>
      exact unlessGone hgone ((interpolate vm _ st).bind (edit _ _))

end Runner.Yields

namespace Client

variable (c : Client C H) (fuel : Nat)

/-- Effects that keep nodes up to date run whenever there is any fuel. -/
theorem runEffect_upkeep (st : LiveState C H) {e : EffectId} {u : Upkeep}
    (he : st.graph.isActive e = true) (hb : (st.graph.effect e).body = some u.routine) :
    (c.meaning.runner (fuel + 1)).runEffect e st = some (st.rerun e u) := by
  have hscript : (c.meaning.runner fuel).run fuel (u.routine : Routine C).script
      (st.withGraph (st.graph.beginRun e)) = _ := Runner.Yields.script u _
  rw [Runner.runEffect_of_some _ st he hb, Meaning.runner_succ_body]
  change (((c.meaning.runner fuel).run fuel (u.routine : Routine C).script _).map _).map _ = _
  rw [hscript]
  rfl

theorem yields_effect (limit : Nat) (u : Upkeep) (st : LiveState C H) :
    (c.meaning.runner (fuel + 1)).Yields limit (Live.effect u.routine) st
      (st.graph.newEffect (u.routine : Routine C)).1 (st.launch u) := by
  have heffect := st.graph.effect_newEffect_self (u.routine : Routine C)
  have hrun := c.runEffect_upkeep fuel
    (st.withGraph (st.graph.newEffect (u.routine : Routine C)).2)
    (congrArg Effect.active heffect) (congrArg Effect.body heffect)
  exact congrArg (Option.bind · ((c.meaning.runner (fuel + 1)).run limit (Script.done _))) hrun

/-- A directive that keeps something up to date is bound by making the effect for it. -/
theorem yields_bind (limit : Nat) {a : Application C} {scope : Scope} {n : NodeId} {u : Upkeep}
    (h : a.Keeps scope.vm n u) (st : LiveState C H) :
    (c.meaning.runner (fuel + 1)).Yields limit (a.bind scope n) st
      (.ok (.effect (st.graph.newEffect (u.routine : Routine C)).1)) (st.launch u) := by
  let install (b : Routine C) : Live C H (Except String (Binding C)) := do
    return .ok (.effect (← Live.effect b))
  have heffect : (c.meaning.runner (fuel + 1)).Yields limit (install u.routine) st _ _ :=
    (c.yields_effect fuel limit u st).bind (Runner.Yields.done _ _)
  rw [Application.Keeps] at h
  rw [Application.bind]
  cases hbehaviour : a.directive.behaviour with
  | text =>
    rw [hbehaviour] at h
    obtain rfl := h
    exact heffect
  | attr =>
    rw [hbehaviour] at h
    dsimp only at h ⊢
    rw [h]
    exact heffect
  | client code =>
    rw [hbehaviour] at h
    exact h.elim

end Client

end LiveMarkup
