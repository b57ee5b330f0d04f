import Mathlib.Tactic.ByContra
import LiveMarkup.Reactive.Graph

/-!
# What a step does to a graph

One lemma for each step and each thing it can change: the value and the subscribers of a signal, and
the body, the activity and the queue flag of an effect. What a step leaves alone is stated where the
step hides it behind a case distinction.
-/

namespace LiveMarkup

/-- The signal with one more subscriber, unless it is one already. -/
def Signal.subscribe {V : Type} (e : EffectId) (signal : Signal V) : Signal V :=
  if e ∈ signal.subscribers then signal
  else { signal with subscribers := signal.subscribers ++ [e] }

namespace Graph

variable {V R : Type} {g g' : Graph V R}

/-! ## Effects -/

theorem effect_of_not_lt {e : EffectId} (h : ¬ e.index < g.effects.size) :
    g.effect e = default := by
  simp [effect, Array.getD, h]

theorem lt_of_isActive {e : EffectId} (h : g.isActive e = true) : e.index < g.effects.size := by
  by_contra hlt
  rw [isActive, effect_of_not_lt hlt] at h
  exact Bool.noConfusion h

/-- A change to an effect, if it exists. -/
theorem effect_of_modify (g g' : Graph V R) (e : EffectId) (f : Effect R → Effect R)
    (hg : g'.effects = g.effects.modify e.index f) (e' : EffectId) :
    g'.effect e' = if e' = e ∧ e.index < g.effects.size then f (g.effect e) else g.effect e' := by
  by_cases h : e' = e
  · by_cases hlt : e.index < g.effects.size
    · rw [if_pos ⟨h, hlt⟩, h]
      simp [effect, hg, Array.getD, hlt, Array.getElem_modify_self]
    · rw [if_neg fun hc ↦ hlt hc.2, h, effect_of_not_lt hlt, effect_of_not_lt]
      rwa [hg, Array.size_modify]
  · rw [if_neg fun hc ↦ h hc.1]
    have hi : e.index ≠ e'.index := fun hi ↦ h (congrArg EffectId.mk hi.symm)
    simp [effect, hg, Array.getD_eq_getD_getElem?, Array.getElem?_modify, hi]

/-- A change that leaves the default alone need not ask whether the effect exists. -/
theorem effect_of_modify_default (g g' : Graph V R) (e : EffectId) (f : Effect R → Effect R)
    (hg : g'.effects = g.effects.modify e.index f) (hf : f default = default) (e' : EffectId) :
    g'.effect e' = if e' = e then f (g.effect e) else g.effect e' := by
  rw [effect_of_modify g g' e f hg]
  by_cases hlt : e.index < g.effects.size
  · simp only [hlt, and_true]
  · rw [if_neg fun hc ↦ hlt hc.2, effect_of_not_lt hlt, hf]
    split
    · rename_i h
      rw [h, effect_of_not_lt hlt]
    · rfl

theorem effect_newEffect (g : Graph V R) (b : R) (e : EffectId) :
    (g.newEffect b).2.effect e =
      if e = (g.newEffect b).1 then ⟨some b, true, false⟩ else g.effect e := by
  by_cases h : e = (g.newEffect b).1
  · rw [if_pos h, h]
    simp [newEffect, effect, Array.getD_eq_getD_getElem?]
  · rw [if_neg h]
    have hi : e.index ≠ g.effects.size := fun hi ↦ h (congrArg EffectId.mk hi)
    simp [newEffect, effect, Array.getD_eq_getD_getElem?, Array.getElem?_push, hi]

theorem effect_newEffect_self (g : Graph V R) (b : R) :
    (g.newEffect b).2.effect (g.newEffect b).1 = ⟨some b, true, false⟩ := by
  rw [effect_newEffect, if_pos rfl]

@[simp] theorem size_newEffect (g : Graph V R) (b : R) :
    (g.newEffect b).2.effects.size = g.effects.size + 1 := by
  simp [newEffect]

theorem effect_stop (g : Graph V R) (e e' : EffectId) :
    (g.stop e).effect e' =
      if e' = e then { g.effect e with body := none, active := false } else g.effect e' :=
  effect_of_modify_default g (g.stop e) e
    (fun cell ↦ { cell with body := none, active := false }) rfl rfl e'

@[simp] theorem queued_stop (g : Graph V R) (e e' : EffectId) :
    ((g.stop e).effect e').queued = (g.effect e').queued := by
  rw [effect_stop]
  split
  · rename_i h
    rw [h]
  · rfl

theorem isActive_of_stop {e e' : EffectId} (h : (g.stop e).isActive e' = true) :
    g.isActive e' = true := by
  rw [isActive, effect_stop] at h
  split at h
  · contradiction
  · exact h

@[simp] theorem size_stop (g : Graph V R) (e : EffectId) :
    (g.stop e).effects.size = g.effects.size := Array.size_modify

/-! ## Runs of effects -/

theorem effect_beginRun (g : Graph V R) (e e' : EffectId) :
    (g.beginRun e).effect e' =
      if e' = e then { g.effect e with body := none } else g.effect e' :=
  effect_of_modify_default g (g.beginRun e) e (fun cell ↦ { cell with body := none }) rfl rfl e'

@[simp] theorem size_beginRun (g : Graph V R) (e : EffectId) :
    (g.beginRun e).effects.size = g.effects.size := Array.size_modify

@[simp] theorem isActive_beginRun (g : Graph V R) (e e' : EffectId) :
    (g.beginRun e).isActive e' = g.isActive e' := by
  rw [isActive, effect_beginRun]
  split
  · rename_i h
    rw [h, isActive]
  · rfl

@[simp] theorem queued_beginRun (g : Graph V R) (e e' : EffectId) :
    ((g.beginRun e).effect e').queued = (g.effect e').queued := by
  rw [effect_beginRun]
  split
  · rename_i h
    rw [h]
  · rfl

theorem endRun_of_active {e : EffectId} (h : g.isActive e = true) (outer : Option EffectId)
    (body : Option R) :
    g.endRun e outer body =
      Graph.modifyEffect { g with current := outer } e fun cell ↦ { cell with body := body } := by
  have h' : Graph.isActive { g with current := outer } e = true := h
  simp [endRun, h']

theorem endRun_of_inactive {e : EffectId} (h : g.isActive e = false) (outer : Option EffectId)
    (body : Option R) : g.endRun e outer body = { g with current := outer } := by
  have h' : Graph.isActive { g with current := outer } e = false := h
  simp [endRun, h']

theorem effect_endRun (g : Graph V R) (e : EffectId) (outer : Option EffectId) (body : Option R)
    (e' : EffectId) :
    (g.endRun e outer body).effect e' =
      if e' = e ∧ g.isActive e = true then { g.effect e with body := body } else g.effect e' := by
  cases ha : g.isActive e with
  | false =>
    rw [endRun_of_inactive ha, if_neg fun hc ↦ Bool.noConfusion hc.2]
    rfl
  | true =>
    rw [endRun_of_active ha,
      effect_of_modify { g with current := outer } _ e (fun cell ↦ { cell with body := body }) rfl]
    simp only [lt_of_isActive ha, and_true]
    rfl

@[simp] theorem isActive_endRun (g : Graph V R) (e : EffectId) (outer : Option EffectId)
    (body : Option R) (e' : EffectId) :
    (g.endRun e outer body).isActive e' = g.isActive e' := by
  rw [isActive, effect_endRun]
  split
  · rename_i h
    rw [h.1, isActive]
  · rfl

@[simp] theorem queued_endRun (g : Graph V R) (e : EffectId) (outer : Option EffectId)
    (body : Option R) (e' : EffectId) :
    ((g.endRun e outer body).effect e').queued = (g.effect e').queued := by
  rw [effect_endRun]
  split
  · rename_i h
    rw [h.1]
  · rfl

@[simp] theorem size_endRun (g : Graph V R) (e : EffectId) (outer : Option EffectId)
    (body : Option R) : (g.endRun e outer body).effects.size = g.effects.size := by
  cases h : g.isActive e with
  | false => rw [endRun_of_inactive h]
  | true => rw [endRun_of_active h]; exact Array.size_modify

@[simp] theorem current_endRun (g : Graph V R) (e : EffectId) (outer : Option EffectId)
    (body : Option R) : (g.endRun e outer body).current = outer := by
  cases h : g.isActive e with
  | false => rw [endRun_of_inactive h]
  | true => rw [endRun_of_active h]; rfl

@[simp] theorem queue_endRun (g : Graph V R) (e : EffectId) (outer : Option EffectId)
    (body : Option R) : (g.endRun e outer body).queue = g.queue := by
  cases h : g.isActive e with
  | false => rw [endRun_of_inactive h]
  | true => rw [endRun_of_active h]; rfl

@[simp] theorem flushing_endRun (g : Graph V R) (e : EffectId) (outer : Option EffectId)
    (body : Option R) : (g.endRun e outer body).flushing = g.flushing := by
  cases h : g.isActive e with
  | false => rw [endRun_of_inactive h]
  | true => rw [endRun_of_active h]; rfl

@[simp] theorem signals_endRun (g : Graph V R) (e : EffectId) (outer : Option EffectId)
    (body : Option R) : (g.endRun e outer body).signals = g.signals := by
  cases h : g.isActive e with
  | false => rw [endRun_of_inactive h]
  | true => rw [endRun_of_active h]; rfl

/-! ## The queue -/

@[simp] theorem signals_enqueue (g : Graph V R) (e : EffectId) :
    (g.enqueue e).signals = g.signals := by
  unfold enqueue
  split <;> rfl

@[simp] theorem current_enqueue (g : Graph V R) (e : EffectId) :
    (g.enqueue e).current = g.current := by
  unfold enqueue
  split <;> rfl

@[simp] theorem flushing_enqueue (g : Graph V R) (e : EffectId) :
    (g.enqueue e).flushing = g.flushing := by
  unfold enqueue
  split <;> rfl

@[simp] theorem size_enqueue (g : Graph V R) (e : EffectId) :
    (g.enqueue e).effects.size = g.effects.size := by
  unfold enqueue
  split
  · rfl
  · exact Array.size_modify

/-- Queuing an effect changes nothing of it but the flag, and only its own. -/
theorem effect_enqueue (g : Graph V R) (e e' : EffectId) :
    ((g.enqueue e).effect e').body = (g.effect e').body ∧
      ((g.enqueue e).effect e').active = (g.effect e').active ∧
      (e' ≠ e → ((g.enqueue e).effect e').queued = (g.effect e').queued) := by
  unfold enqueue
  split
  · exact ⟨rfl, rfl, fun _ ↦ rfl⟩
  · rw [effect_of_modify g _ e (fun cell ↦ { cell with queued := true }) rfl]
    split
    · rename_i h
      rw [h.1]
      exact ⟨rfl, rfl, fun hne ↦ absurd rfl hne⟩
    · exact ⟨rfl, rfl, fun _ ↦ rfl⟩

@[simp] theorem isActive_enqueue (g : Graph V R) (e e' : EffectId) :
    (g.enqueue e).isActive e' = g.isActive e' := (effect_enqueue g e e').2.1

theorem queue_subset_enqueue (g : Graph V R) (e : EffectId) : g.queue ⊆ (g.enqueue e).queue := by
  unfold enqueue
  split
  · exact List.Subset.refl _
  · exact List.subset_cons_self e g.queue

/-- An effect that is flagged only when it waits does wait once it was queued. -/
theorem mem_queue_enqueue (h : ∀ e, (g.effect e).queued = true → e ∈ g.queue) (e : EffectId) :
    e ∈ (g.enqueue e).queue := by
  unfold enqueue
  split
  · rename_i he
    exact h e he
  · exact List.mem_cons_self

/-- What queuing one effect leaves alone, queuing several does. -/
theorem foldl_enqueue_eq {β : Type} (part : Graph V R → β)
    (h : ∀ g e, part (g.enqueue e) = part g) (es : List EffectId) (g : Graph V R) :
    part (es.foldl enqueue g) = part g := by
  induction es generalizing g with
  | nil => rfl
  | cons e es ih => rw [List.foldl_cons, ih, h]

@[simp] theorem signals_foldl_enqueue (es : List EffectId) (g : Graph V R) :
    (es.foldl enqueue g).signals = g.signals :=
  foldl_enqueue_eq (fun g ↦ g.signals) signals_enqueue es g

@[simp] theorem current_foldl_enqueue (es : List EffectId) (g : Graph V R) :
    (es.foldl enqueue g).current = g.current :=
  foldl_enqueue_eq (fun g ↦ g.current) current_enqueue es g

@[simp] theorem flushing_foldl_enqueue (es : List EffectId) (g : Graph V R) :
    (es.foldl enqueue g).flushing = g.flushing :=
  foldl_enqueue_eq (fun g ↦ g.flushing) flushing_enqueue es g

@[simp] theorem size_foldl_enqueue (es : List EffectId) (g : Graph V R) :
    (es.foldl enqueue g).effects.size = g.effects.size :=
  foldl_enqueue_eq (fun g ↦ g.effects.size) size_enqueue es g

@[simp] theorem isActive_foldl_enqueue (es : List EffectId) (g : Graph V R) (e : EffectId) :
    (es.foldl enqueue g).isActive e = g.isActive e :=
  foldl_enqueue_eq (fun g ↦ g.isActive e) (fun g e' ↦ isActive_enqueue g e' e) es g

@[simp] theorem body_foldl_enqueue (es : List EffectId) (g : Graph V R) (e : EffectId) :
    ((es.foldl enqueue g).effect e).body = (g.effect e).body :=
  foldl_enqueue_eq (fun g ↦ (g.effect e).body) (fun g e' ↦ (effect_enqueue g e' e).1) es g

theorem queue_subset_foldl_enqueue (es : List EffectId) (g : Graph V R) :
    g.queue ⊆ (es.foldl enqueue g).queue := by
  induction es generalizing g with
  | nil => exact List.Subset.refl _
  | cons e es ih => exact List.Subset.trans (queue_subset_enqueue g e) (ih (g.enqueue e))

/-- Nobody is in the queue but those that were and those that were put there. -/
theorem of_mem_queue_foldl_enqueue {es : List EffectId} {e : EffectId}
    (h : e ∈ (es.foldl enqueue g).queue) : e ∈ es ∨ e ∈ g.queue := by
  induction es generalizing g with
  | nil => exact .inr h
  | cons e' es ih =>
    rcases ih h with h | h
    · exact .inl (List.mem_cons_of_mem e' h)
    · rw [enqueue] at h
      split at h
      · exact .inr h
      · rcases List.mem_cons.mp h with rfl | h
        · exact .inl List.mem_cons_self
        · exact .inr h

theorem dequeue?_eq_none_iff : g.dequeue? = none ↔ g.queue = [] := by
  unfold dequeue?
  split
  · rename_i h
    simp [h]
  · rename_i h
    simp [h]

theorem dequeue?_eq_some {e : EffectId} (h : g.dequeue? = some (e, g')) :
    g.queue = e :: g'.queue ∧
      g' = { g.modifyEffect e (fun cell ↦ { cell with queued := false }) with
        queue := g'.queue } := by
  unfold dequeue? at h
  split at h
  · contradiction
  · rename_i e₀ rest hq
    simp only [Option.some.injEq, Prod.mk.injEq] at h
    obtain ⟨rfl, rfl⟩ := h
    exact ⟨hq, rfl⟩

theorem effect_dequeue {e : EffectId} (h : g.dequeue? = some (e, g')) (e' : EffectId) :
    g'.effect e' = if e' = e then { g.effect e with queued := false } else g.effect e' := by
  rw [(dequeue?_eq_some h).2]
  exact effect_of_modify_default g
    { g.modifyEffect e (fun cell ↦ { cell with queued := false }) with queue := g'.queue } e
    (fun cell ↦ { cell with queued := false }) rfl rfl e'

theorem body_dequeue {e : EffectId} (h : g.dequeue? = some (e, g')) (e' : EffectId) :
    (g'.effect e').body = (g.effect e').body := by
  rw [effect_dequeue h]
  split
  · rename_i he
    rw [he]
  · rfl

theorem isActive_dequeue {e : EffectId} (h : g.dequeue? = some (e, g')) (e' : EffectId) :
    g'.isActive e' = g.isActive e' := by
  rw [isActive, effect_dequeue h]
  split
  · rename_i he
    rw [he, isActive]
  · rfl

theorem signals_dequeue {e : EffectId} (h : g.dequeue? = some (e, g')) :
    g'.signals = g.signals := by
  rw [(dequeue?_eq_some h).2]
  rfl

theorem size_dequeue {e : EffectId} (h : g.dequeue? = some (e, g')) :
    g'.effects.size = g.effects.size := by
  rw [(dequeue?_eq_some h).2]
  exact Array.size_modify

theorem current_dequeue {e : EffectId} (h : g.dequeue? = some (e, g')) :
    g'.current = g.current := by
  rw [(dequeue?_eq_some h).2]
  rfl

theorem flushing_dequeue {e : EffectId} (h : g.dequeue? = some (e, g')) :
    g'.flushing = g.flushing := by
  rw [(dequeue?_eq_some h).2]
  rfl

/-! ## Signals -/

@[simp] theorem size_newSignal (g : Graph V R) (v : V) :
    (g.newSignal v).2.signals.size = g.signals.size + 1 := by
  simp [newSignal]

theorem effect_track (g : Graph V R) (s : SignalId) (e : EffectId) :
    (g.track s).effect e = g.effect e := by
  unfold track
  split <;> rfl

/-- Outside all effects a read subscribes nobody. -/
theorem track_of_none (h : g.current = none) (s : SignalId) : g.track s = g := by
  rw [track, h]

theorem track_of_some {e : EffectId} (h : g.current = some e) (s : SignalId) :
    g.track s = { g with signals := g.signals.modify s.index (Signal.subscribe e) } := by
  rw [track, h]
  rfl

@[simp] theorem effects_track (g : Graph V R) (s : SignalId) : (g.track s).effects = g.effects := by
  unfold track
  split <;> rfl

@[simp] theorem queue_track (g : Graph V R) (s : SignalId) : (g.track s).queue = g.queue := by
  unfold track
  split <;> rfl

@[simp] theorem current_track (g : Graph V R) (s : SignalId) :
    (g.track s).current = g.current := by
  unfold track
  split <;> rfl

@[simp] theorem flushing_track (g : Graph V R) (s : SignalId) :
    (g.track s).flushing = g.flushing := by
  unfold track
  split <;> rfl

@[simp] theorem size_track (g : Graph V R) (s : SignalId) :
    (g.track s).signals.size = g.signals.size := by
  unfold track
  split <;> simp

variable [Inhabited V]

theorem value_dequeue {e : EffectId} (h : g.dequeue? = some (e, g')) (s : SignalId) :
    g'.value s = g.value s := by
  rw [value, signal, signals_dequeue h, value, signal]

theorem signal_of_not_lt {s : SignalId} (h : ¬ s.index < g.signals.size) :
    g.signal s = default := by
  simp [signal, Array.getD, h]

/-- A change to a signal, if it exists. -/
theorem signal_of_modify (g g' : Graph V R) (s : SignalId) (f : Signal V → Signal V)
    (hg : g'.signals = g.signals.modify s.index f) (s' : SignalId) :
    g'.signal s' = if s' = s ∧ s.index < g.signals.size then f (g.signal s) else g.signal s' := by
  by_cases h : s' = s
  · by_cases hlt : s.index < g.signals.size
    · rw [if_pos ⟨h, hlt⟩, h]
      simp [signal, hg, Array.getD, hlt, Array.getElem_modify_self]
    · rw [if_neg fun hc ↦ hlt hc.2, h, signal_of_not_lt hlt, signal_of_not_lt]
      rwa [hg, Array.size_modify]
  · rw [if_neg fun hc ↦ h hc.1]
    have hi : s.index ≠ s'.index := fun hi ↦ h (congrArg SignalId.mk hi.symm)
    simp [signal, hg, Array.getD_eq_getD_getElem?, Array.getElem?_modify, hi]

theorem signal_newSignal (g : Graph V R) (v : V) (s : SignalId) :
    (g.newSignal v).2.signal s = if s = (g.newSignal v).1 then ⟨v, []⟩ else g.signal s := by
  by_cases h : s = (g.newSignal v).1
  · rw [if_pos h, h]
    simp [newSignal, signal, Array.getD_eq_getD_getElem?]
  · rw [if_neg h]
    have hi : s.index ≠ g.signals.size := fun hi ↦ h (congrArg SignalId.mk hi)
    simp [newSignal, signal, Array.getD_eq_getD_getElem?, Array.getElem?_push, hi]

theorem signal_newSignal_of_lt {s : SignalId} (h : s.index < g.signals.size) (v : V) :
    (g.newSignal v).2.signal s = g.signal s := by
  rw [signal_newSignal, if_neg]
  intro he
  rw [he] at h
  exact Nat.lt_irrefl _ h

/-- A read leaves every signal its value, and can only add a subscriber. -/
theorem signal_track (g : Graph V R) (s s' : SignalId) :
    ((g.track s).signal s').value = (g.signal s').value ∧
      (g.signal s').subscribers ⊆ ((g.track s).signal s').subscribers := by
  cases hc : g.current with
  | none => rw [track_of_none hc]; exact ⟨rfl, List.Subset.refl _⟩
  | some e =>
    rw [track_of_some hc, signal_of_modify g _ s (Signal.subscribe e) rfl]
    split
    · rename_i h
      rw [h.1, Signal.subscribe]
      split
      · exact ⟨rfl, List.Subset.refl _⟩
      · exact ⟨rfl, List.subset_append_left ..⟩
    · exact ⟨rfl, List.Subset.refl _⟩

@[simp] theorem value_track (g : Graph V R) (s s' : SignalId) :
    (g.track s).value s' = g.value s' := (signal_track g s s').1

/-- A read subscribes nobody but the current effect, and to nothing but what is read. -/
theorem of_mem_subscribers_track {s s' : SignalId} {e : EffectId}
    (h : e ∈ ((g.track s).signal s').subscribers) :
    e ∈ (g.signal s').subscribers ∨ g.current = some e ∧ s' = s := by
  cases hc : g.current with
  | none =>
    rw [track_of_none hc] at h
    exact .inl h
  | some e' =>
    rw [track_of_some hc, signal_of_modify g _ s (Signal.subscribe e') rfl] at h
    split at h
    · rename_i hs
      rw [Signal.subscribe] at h
      split at h
      · exact .inl (hs.1 ▸ h)
      · rcases List.mem_append.mp h with h | h
        · exact .inl (hs.1 ▸ h)
        · exact .inr ⟨congrArg some (List.mem_singleton.mp h).symm, hs.1⟩
    · exact .inl h

/-- A read of a signal subscribes the current effect to it. -/
theorem mem_subscribers_track {s : SignalId} {e : EffectId} (hs : s.index < g.signals.size)
    (he : g.current = some e) : e ∈ ((g.track s).signal s).subscribers := by
  rw [track_of_some he, signal_of_modify g _ s (Signal.subscribe e) rfl, if_pos ⟨rfl, hs⟩,
    Signal.subscribe]
  split
  · assumption
  · exact List.mem_append_right _ (List.mem_singleton_self e)

/-! ## Writes -/

theorem signals_write (g : Graph V R) (s : SignalId) (v : V) :
    (g.write s v).signals = g.signals.modify s.index fun _ ↦ ⟨v, g.activeSubscribers s⟩ := by
  simp [write]

@[simp] theorem size_signals_write (g : Graph V R) (s : SignalId) (v : V) :
    (g.write s v).signals.size = g.signals.size := by
  rw [signals_write, Array.size_modify]

@[simp] theorem size_write (g : Graph V R) (s : SignalId) (v : V) :
    (g.write s v).effects.size = g.effects.size := by
  simp [write]

@[simp] theorem current_write (g : Graph V R) (s : SignalId) (v : V) :
    (g.write s v).current = g.current := by
  simp [write]

@[simp] theorem flushing_write (g : Graph V R) (s : SignalId) (v : V) :
    (g.write s v).flushing = g.flushing := by
  simp [write]

@[simp] theorem isActive_write (g : Graph V R) (s : SignalId) (v : V) (e : EffectId) :
    (g.write s v).isActive e = g.isActive e := by
  rw [write, isActive_foldl_enqueue]
  rfl

@[simp] theorem body_write (g : Graph V R) (s : SignalId) (v : V) (e : EffectId) :
    ((g.write s v).effect e).body = (g.effect e).body := by
  rw [write, body_foldl_enqueue]
  rfl

theorem queue_subset_write (g : Graph V R) (s : SignalId) (v : V) :
    g.queue ⊆ (g.write s v).queue :=
  queue_subset_foldl_enqueue _ { g with signals := g.signals.modify s.index _ }

/-- A write changes the value of its signal only. -/
theorem value_write_of_ne (g : Graph V R) {s s' : SignalId} (h : s' ≠ s) (v : V) :
    (g.write s v).value s' = g.value s' := by
  rw [value, signal_of_modify g _ s _ (signals_write g s v), if_neg fun hc ↦ h hc.1, value]

theorem value_write_self (g : Graph V R) {s : SignalId} (h : s.index < g.signals.size) (v : V) :
    (g.write s v).value s = v := by
  rw [value, signal_of_modify g _ s _ (signals_write g s v), if_pos ⟨rfl, h⟩]

/-- A write forgets only subscribers that were stopped. -/
theorem mem_subscribers_write (g : Graph V R) (s : SignalId) (v : V) {s' : SignalId}
    {e : EffectId} (he : g.isActive e = true) (hs : e ∈ (g.signal s').subscribers) :
    e ∈ ((g.write s v).signal s').subscribers := by
  rw [signal_of_modify g _ s _ (signals_write g s v)]
  split
  · rename_i h
    rw [h.1] at hs
    exact List.mem_filter.mpr ⟨hs, he⟩
  · exact hs

/-- A write subscribes nobody. -/
theorem of_mem_subscribers_write {s s' : SignalId} {v : V} {e : EffectId}
    (h : e ∈ ((g.write s v).signal s').subscribers) : e ∈ (g.signal s').subscribers := by
  rw [signal_of_modify g _ s _ (signals_write g s v)] at h
  split at h
  · rename_i hs
    rw [hs.1]
    exact (List.mem_filter.mp h).1
  · exact h

/-- A write queues nobody but subscribers of its signal. -/
theorem of_mem_queue_write {s : SignalId} {v : V} {e : EffectId} (h : e ∈ (g.write s v).queue) :
    e ∈ (g.signal s).subscribers ∨ e ∈ g.queue := by
  rcases of_mem_queue_foldl_enqueue h with h | h
  · exact .inl (List.mem_filter.mp h).1
  · exact .inr h

/-- Whether every effect that is flagged as waiting is in the queue. -/
def Flagged (g : Graph V R) : Prop := ∀ e, (g.effect e).queued = true → e ∈ g.queue

omit [Inhabited V] in
theorem Flagged.enqueue (h : g.Flagged) (e : EffectId) : (g.enqueue e).Flagged := by
  intro e' he'
  by_cases hne : e' = e
  · rw [hne]
    exact mem_queue_enqueue h e
  · rw [(effect_enqueue g e e').2.2 hne] at he'
    exact queue_subset_enqueue g e (h e' he')

omit [Inhabited V] in
/-- Whatever is queued is in the queue afterwards. -/
theorem Flagged.foldl_enqueue (h : g.Flagged) (es : List EffectId) :
    (es.foldl Graph.enqueue g).Flagged ∧ es ⊆ (es.foldl Graph.enqueue g).queue := by
  induction es generalizing g with
  | nil => exact ⟨h, List.nil_subset _⟩
  | cons e es ih =>
    refine ⟨(ih (h.enqueue e)).1, List.cons_subset.mpr ⟨?_, (ih (h.enqueue e)).2⟩⟩
    exact queue_subset_foldl_enqueue es (g.enqueue e) (mem_queue_enqueue h e)

theorem Flagged.write (h : g.Flagged) (s : SignalId) (v : V) : (g.write s v).Flagged := by
  have h' : Flagged { g with signals := g.signals.modify s.index fun _ ↦
      ⟨v, g.activeSubscribers s⟩ } := h
  exact (h'.foldl_enqueue (g.activeSubscribers s)).1

/-- A write queues every active subscriber of its signal. -/
theorem Flagged.mem_queue_write (h : g.Flagged) {s : SignalId} (v : V) {e : EffectId}
    (he : g.isActive e = true) (hs : e ∈ (g.signal s).subscribers) :
    e ∈ (g.write s v).queue := by
  have h' : Flagged { g with signals := g.signals.modify s.index fun _ ↦
      ⟨v, g.activeSubscribers s⟩ } := h
  exact (h'.foldl_enqueue (g.activeSubscribers s)).2 (List.mem_filter.mpr ⟨hs, he⟩)

omit [Inhabited V] in
theorem Flagged.dequeue {e : EffectId} (h : g.Flagged) (hd : g.dequeue? = some (e, g')) :
    g'.Flagged := by
  intro e' he'
  rw [effect_dequeue hd] at he'
  split at he'
  · contradiction
  · rename_i hne
    have hmem : e' ∈ e :: g'.queue := (dequeue?_eq_some hd).1 ▸ h e' he'
    exact (List.mem_cons.mp hmem).resolve_left hne

end Graph

end LiveMarkup
