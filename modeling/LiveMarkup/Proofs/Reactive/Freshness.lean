import LiveMarkup.Proofs.Reactive.Continues

/-!
# No effect stays stale

An effect is up to date when every value it read in its latest run is still the value of its signal.
A write outside of any flush leaves every active effect up to date, whatever the bodies do: they may
write in their turn, make effects, stop them, or look at the graph without being subscribed.

Two invariants carry the proof, beside `Graph.Continues`, by which an effect that a flush meets from
outside has its body, and really runs.

* `State.Grounded`: an active effect is subscribed to whatever it read.
* `State.Fresh`: during a flush, what an active effect read is current or the effect waits in the
  queue. A write queues the subscribers, and when an effect leaves the queue its run begins, with
  nothing read yet.

When the queue is empty, being fresh is being up to date. Both speak of all effects but some given
ones: a flush that begins inside a run meets effects without their bodies, and promises nothing of
them (`Graph.Lacks`).
-/

namespace LiveMarkup

variable {V R W Q : Type} {A : Q → Type} {α : Type}

namespace State

/-! ## What an effect has read -/

/-- When a run begins its effect has read nothing, and the others have what they had. -/
theorem latestReads_begin (st : State V R (W × Diary V R)) (e e' : EffectId) :
    (st.begin e).diary.latestReads e' = if e' = e then [] else st.diary.latestReads e' := by
  rw [begin, diary_note, Diary.latestReads_append_singleton, Note.readsAfter, diary_withGraph]
  have hcurrent : (st.graph.beginRun e).current = some e' ↔ e' = e := by
    rw [Graph.beginRun, Option.some.injEq, eq_comm]
  simp only [graph_withGraph, hcurrent]

@[simp] theorem latestReads_finish (st : State V R (W × Diary V R)) (e : EffectId)
    (outer : Option EffectId) (b : R) (e' : EffectId) :
    (st.finish e outer b).diary.latestReads e' = st.diary.latestReads e' := by
  rw [finish, diary_withGraph, diary_note, Diary.latestReads_append_singleton, Note.readsAfter]
  split <;> rfl

/-- A read is added to what the current effect has read, and to nothing else. -/
theorem mem_latestReads_noteRead {st : State V R (W × Diary V R)} {s : SignalId} {v : V}
    {e : EffectId} {x : SignalId × V} (hx : x ∈ (st.noteRead s v).diary.latestReads e) :
    x ∈ st.diary.latestReads e ∨
      x = (s, v) ∧ s.index < st.graph.signals.size ∧ st.graph.current = some e := by
  unfold noteRead at hx
  split at hx
  · rename_i hs
    rw [diary_note, Diary.latestReads_append_singleton, Note.readsAfter] at hx
    split at hx
    · rename_i hcurrent
      rcases List.mem_append.mp hx with hx | hx
      · exact .inl hx
      · exact .inr ⟨List.mem_singleton.mp hx, hs, hcurrent⟩
    · exact .inl hx
  · exact .inl hx

/-- When an effect begins to run it has read nothing. -/
theorem reads_of_begin {st : State V R (W × Diary V R)} {e e' : EffectId} {x : SignalId × V}
    (hx : x ∈ (st.begin e).diary.latestReads e') : e' ≠ e ∧ x ∈ st.diary.latestReads e' := by
  rw [latestReads_begin] at hx
  split at hx
  · exact absurd hx List.not_mem_nil
  · rename_i hne
    exact ⟨hne, hx⟩

/-- A new effect has read nothing, and leaves the others as they are. -/
theorem reads_of_begin_newEffect {st : State V R (W × Diary V R)} {b : R} {e : EffectId}
    {x : SignalId × V}
    (ha : ((st.withGraph (st.graph.newEffect b).2).begin (st.graph.newEffect b).1).graph.isActive e
      = true)
    (hx : x ∈ ((st.withGraph (st.graph.newEffect b).2).begin
      (st.graph.newEffect b).1).diary.latestReads e) :
    st.graph.isActive e = true ∧ x ∈ st.diary.latestReads e := by
  obtain ⟨hne, hx⟩ := reads_of_begin hx
  rw [State.begin, graph_note, graph_withGraph, graph_withGraph, Graph.isActive_beginRun,
    Graph.isActive, Graph.effect_newEffect, if_neg hne] at ha
  exact ⟨ha, hx⟩

/-- A step that leaves the diary alone. -/
theorem reads_of_diary {st st' : State V R (W × Diary V R)} (hdiary : st'.diary = st.diary)
    (hactive : ∀ e, st'.graph.isActive e = true → st.graph.isActive e = true) (e : EffectId)
    (ha : st'.graph.isActive e = true) (x : SignalId × V) (hx : x ∈ st'.diary.latestReads e) :
    st.graph.isActive e = true ∧ x ∈ st.diary.latestReads e :=
  ⟨hactive e ha, hdiary ▸ hx⟩

variable [Inhabited V]

/-! ## Reads are subscriptions -/

/-- Whether active effects are subscribed to what they read, and the queue holds what is flagged as
waiting. -/
structure Grounded (st : State V R (W × Diary V R)) : Prop where
  flagged : st.graph.Flagged
  subscribed : ∀ e, st.graph.isActive e = true → ∀ x ∈ st.diary.latestReads e,
    x.1.index < st.graph.signals.size ∧ e ∈ (st.graph.signal x.1).subscribers

/-- Whether what an active effect read is current, or the effect waits; those of `X` aside. -/
def Fresh (st : State V R (W × Diary V R)) (X : EffectId → Prop) : Prop :=
  ∀ e, st.graph.isActive e = true → ¬ X e → ∀ x ∈ st.diary.latestReads e,
    st.graph.value x.1 = x.2 ∨ e ∈ st.graph.queue

/-- Whether all that active effects have read in their latest runs is still current. -/
def UpToDate (st : State V R (W × Diary V R)) : Prop :=
  ∀ e, st.graph.isActive e = true → ∀ x ∈ st.diary.latestReads e, st.graph.value x.1 = x.2

variable {st st' : State V R (W × Diary V R)} {X : EffectId → Prop}

/-- A step that neither unsubscribes an active effect nor adds to what one has read. -/
theorem Grounded.of_step (h : st.Grounded) (hflagged : st'.graph.Flagged)
    (hread : ∀ e, st'.graph.isActive e = true → ∀ x ∈ st'.diary.latestReads e,
      st.graph.isActive e = true ∧ x ∈ st.diary.latestReads e)
    (hsubscribed : ∀ e (s : SignalId), st.graph.isActive e = true →
      s.index < st.graph.signals.size → e ∈ (st.graph.signal s).subscribers →
        s.index < st'.graph.signals.size ∧ e ∈ (st'.graph.signal s).subscribers) :
    st'.Grounded where
  flagged := hflagged
  subscribed e ha x hx := by
    obtain ⟨ha₀, hx₀⟩ := hread e ha x hx
    obtain ⟨hs, he⟩ := h.subscribed e ha₀ x hx₀
    exact hsubscribed e x.1 ha₀ hs he

/-- A step that changes no value that was read and loses no effect from the queue. -/
theorem Fresh.of_step (h : st.Fresh X)
    (hread : ∀ e, st'.graph.isActive e = true → ∀ x ∈ st'.diary.latestReads e,
      st.graph.isActive e = true ∧ x ∈ st.diary.latestReads e)
    (hvalue : ∀ e, st.graph.isActive e = true → ∀ x ∈ st.diary.latestReads e,
      st'.graph.value x.1 = st.graph.value x.1)
    (hqueue : st.graph.queue ⊆ st'.graph.queue) : st'.Fresh X := by
  intro e ha hX x hx
  obtain ⟨ha₀, hx₀⟩ := hread e ha x hx
  refine (h e ha₀ hX x hx₀).imp (fun hv ↦ ?_) fun he ↦ hqueue he
  rw [hvalue e ha₀ x hx₀, hv]

theorem Grounded.newSignal (h : st.Grounded) (v : V) :
    (st.withGraph (st.graph.newSignal v).2).Grounded := by
  refine h.of_step h.flagged (reads_of_diary rfl fun _ ha ↦ ha) fun e s _ hs he ↦ ?_
  rw [graph_withGraph, Graph.size_newSignal, Graph.signal_newSignal_of_lt hs]
  exact ⟨hs.trans (Nat.lt_succ_self _), he⟩

theorem Fresh.newSignal (hg : st.Grounded) (h : st.Fresh X) (v : V) :
    (st.withGraph (st.graph.newSignal v).2).Fresh X := by
  refine h.of_step (reads_of_diary rfl fun _ ha ↦ ha) (fun e ha x hx ↦ ?_) (List.Subset.refl _)
  rw [graph_withGraph, Graph.value, Graph.signal_newSignal_of_lt (hg.subscribed e ha x hx).1,
    Graph.value]

/-- The current effect subscribes to what it reads. -/
theorem Grounded.read (h : st.Grounded) (s : SignalId) (v : V) :
    ((st.withGraph (st.graph.track s)).noteRead s v).Grounded where
  flagged e he := by
    rw [graph_noteRead, graph_withGraph, Graph.effect_track] at he
    rw [graph_noteRead, graph_withGraph, Graph.queue_track]
    exact h.flagged e he
  subscribed e ha x hx := by
    rw [graph_noteRead, graph_withGraph, Graph.isActive, Graph.effect_track] at ha
    rw [graph_noteRead, graph_withGraph, Graph.size_track]
    rcases mem_latestReads_noteRead hx with hx | ⟨rfl, hs, hcurrent⟩
    · obtain ⟨hs, he⟩ := h.subscribed e ha x hx
      exact ⟨hs, (Graph.signal_track st.graph s x.1).2 he⟩
    · rw [graph_withGraph, Graph.size_track] at hs
      rw [graph_withGraph, Graph.current_track] at hcurrent
      exact ⟨hs, Graph.mem_subscribers_track hs hcurrent⟩

theorem Fresh.read (h : st.Fresh X) (s : SignalId) :
    ((st.withGraph (st.graph.track s)).noteRead s (st.graph.value s)).Fresh X := by
  intro e ha hX x hx
  rw [graph_noteRead, graph_withGraph, Graph.isActive, Graph.effect_track] at ha
  rw [graph_noteRead, graph_withGraph, Graph.value_track, Graph.queue_track]
  rcases mem_latestReads_noteRead hx with hx | ⟨rfl, -, -⟩
  · exact h e ha hX x hx
  · exact .inl rfl

theorem Grounded.stop (h : st.Grounded) (e : EffectId) :
    (st.withGraph (st.graph.stop e)).Grounded := by
  refine h.of_step (fun e' he' ↦ ?_) (reads_of_diary rfl fun _ ↦ Graph.isActive_of_stop)
    fun _ _ _ hs he ↦ ⟨hs, he⟩
  rw [graph_withGraph, Graph.queued_stop] at he'
  exact h.flagged e' he'

theorem Fresh.stop (h : st.Fresh X) (e : EffectId) : (st.withGraph (st.graph.stop e)).Fresh X :=
  h.of_step (reads_of_diary rfl fun _ ↦ Graph.isActive_of_stop) (fun _ _ _ _ ↦ rfl)
    (List.Subset.refl _)

theorem Grounded.write (h : st.Grounded) (s : SignalId) (v : V) :
    (st.withGraph (st.graph.write s v)).Grounded := by
  refine h.of_step (h.flagged.write s v)
    (reads_of_diary rfl fun e ha ↦ (Graph.isActive_write st.graph s v e).symm.trans ha)
    fun e s' ha hs he ↦ ?_
  rw [graph_withGraph, Graph.size_signals_write]
  exact ⟨hs, Graph.mem_subscribers_write st.graph s v ha he⟩

/-- A write queues whoever read the signal. -/
theorem Fresh.write (hg : st.Grounded) (h : st.Fresh X) (s : SignalId) (v : V) :
    (st.withGraph (st.graph.write s v)).Fresh X := by
  intro e ha hX x hx
  rw [graph_withGraph, Graph.isActive_write] at ha
  by_cases hs : x.1 = s
  · exact .inr (hg.flagged.mem_queue_write v ha (hs ▸ (hg.subscribed e ha x hx).2))
  · rw [graph_withGraph, Graph.value_write_of_ne st.graph hs]
    exact (h e ha hX x hx).imp_right fun he ↦ Graph.queue_subset_write st.graph s v he

theorem Grounded.begin (h : st.Grounded) (e : EffectId) : (st.begin e).Grounded := by
  refine h.of_step (fun e' he' ↦ ?_) (fun e' ha x hx ↦ ?_) fun _ _ _ hs he ↦ ⟨hs, he⟩
  · rw [State.begin, graph_note, graph_withGraph, Graph.queued_beginRun] at he'
    exact h.flagged e' he'
  · rw [State.begin, graph_note, graph_withGraph, Graph.isActive_beginRun] at ha
    exact ⟨ha, (reads_of_begin hx).2⟩

theorem Grounded.begin_newEffect (h : st.Grounded) (b : R) :
    ((st.withGraph (st.graph.newEffect b).2).begin (st.graph.newEffect b).1).Grounded := by
  refine h.of_step (fun e he ↦ ?_) (fun _ ha _ ↦ reads_of_begin_newEffect ha)
    fun _ _ _ hs he ↦ ⟨hs, he⟩
  rw [State.begin, graph_note, graph_withGraph, graph_withGraph, Graph.queued_beginRun,
    Graph.effect_newEffect] at he
  split at he
  · contradiction
  · exact h.flagged e he

theorem Fresh.begin_newEffect (h : st.Fresh X) (b : R) :
    ((st.withGraph (st.graph.newEffect b).2).begin (st.graph.newEffect b).1).Fresh X :=
  h.of_step (fun _ ha _ ↦ reads_of_begin_newEffect ha) (fun _ _ _ _ ↦ rfl) (List.Subset.refl _)

theorem Grounded.finish (h : st.Grounded) (e : EffectId) (outer : Option EffectId) (b : R) :
    (st.finish e outer b).Grounded := by
  have hgraph : (st.finish e outer b).graph = st.graph.endRun e outer (some b) := rfl
  refine h.of_step (fun e' he' ↦ ?_) (fun e' ha x hx ↦ ?_) fun e' s _ hs he ↦ ?_
  · rw [hgraph, Graph.queued_endRun] at he'
    rw [hgraph, Graph.queue_endRun]
    exact h.flagged e' he'
  · rw [hgraph, Graph.isActive_endRun] at ha
    rw [latestReads_finish] at hx
    exact ⟨ha, hx⟩
  · rw [hgraph, Graph.signal, Graph.signals_endRun]
    exact ⟨hs, he⟩

theorem Fresh.finish (h : st.Fresh X) (e : EffectId) (outer : Option EffectId) (b : R) :
    (st.finish e outer b).Fresh X := by
  have hgraph : (st.finish e outer b).graph = st.graph.endRun e outer (some b) := rfl
  refine h.of_step (fun e' ha x hx ↦ ?_) (fun e' _ x _ ↦ ?_) ?_
  · rw [hgraph, Graph.isActive_endRun] at ha
    rw [latestReads_finish] at hx
    exact ⟨ha, hx⟩
  · rw [hgraph, Graph.value, Graph.signal, Graph.signals_endRun, Graph.value, Graph.signal]
  · rw [hgraph, Graph.queue_endRun]
    exact List.Subset.refl _

theorem Grounded.idle (h : st.Grounded) (e : EffectId) (outer : Option EffectId) :
    (st.withGraph ((st.graph.beginRun e).endRun e outer none)).Grounded := by
  refine h.of_step (fun e' he' ↦ ?_) (reads_of_diary rfl fun e' ha ↦ ?_) fun e' s _ hs he ↦ ?_
  · rw [graph_withGraph, Graph.queued_endRun, Graph.queued_beginRun] at he'
    rw [graph_withGraph, Graph.queue_endRun]
    exact h.flagged e' he'
  · rwa [graph_withGraph, Graph.isActive_endRun, Graph.isActive_beginRun] at ha
  · rw [graph_withGraph, Graph.signal, Graph.signals_endRun]
    exact ⟨hs, he⟩

theorem Grounded.dequeue {e : EffectId} {g : Graph V R} (h : st.Grounded)
    (hd : st.graph.dequeue? = some (e, g)) : (st.withGraph g).Grounded := by
  refine h.of_step (h.flagged.dequeue hd)
    (reads_of_diary rfl fun e' ha ↦ (Graph.isActive_dequeue hd e').symm.trans ha)
    fun e' s _ hs he ↦ ?_
  rw [graph_withGraph, Graph.signal, Graph.signals_dequeue hd]
  exact ⟨hs, he⟩

/-- What leaves the queue begins to run, and what waits behind it waits still. -/
theorem Fresh.dequeue_begin {e : EffectId} {g : Graph V R} (h : st.Fresh X)
    (hd : st.graph.dequeue? = some (e, g)) : ((st.withGraph g).begin e).Fresh X := by
  intro e' ha hX x hx
  obtain ⟨hne, hx⟩ := reads_of_begin hx
  rw [State.begin, graph_note, graph_withGraph, graph_withGraph, Graph.isActive_beginRun,
    Graph.isActive_dequeue hd] at ha
  refine (h e' ha hX x hx).imp (fun hv ↦ ?_) fun he ↦ ?_
  · exact (Graph.value_dequeue hd x.1).trans hv
  · rw [(Graph.dequeue?_eq_some hd).1] at he
    exact (List.mem_cons.mp he).resolve_left hne

/-- An effect of which nothing is promised leaves the queue: one that was stopped while it waited,
or one whose body is taken out. -/
theorem Fresh.dequeue_of_exempt {e : EffectId} {g : Graph V R} (h : st.Fresh X)
    (hd : st.graph.dequeue? = some (e, g)) (he : g.isActive e = true → X e) :
    (st.withGraph g).Fresh X := by
  intro e' ha hX x hx
  have hne : e' ≠ e := fun hc ↦ hX (hc ▸ he (hc ▸ ha))
  rw [graph_withGraph, Graph.isActive_dequeue hd] at ha
  refine (h e' ha hX x hx).imp (fun hv ↦ ?_) fun he ↦ ?_
  · exact (Graph.value_dequeue hd x.1).trans hv
  · rw [(Graph.dequeue?_eq_some hd).1] at he
    exact (List.mem_cons.mp he).resolve_left hne

/-- A run that meets an effect without its body. -/
theorem Fresh.idle (h : st.Fresh X) (e : EffectId) (outer : Option EffectId) :
    (st.withGraph ((st.graph.beginRun e).endRun e outer none)).Fresh X := by
  refine h.of_step (reads_of_diary rfl fun e' ha ↦ ?_) (fun e' _ x _ ↦ ?_) ?_
  · rwa [graph_withGraph, Graph.isActive_endRun, Graph.isActive_beginRun] at ha
  · rw [graph_withGraph, Graph.value, Graph.signal, Graph.signals_endRun]
    rfl
  · rw [graph_withGraph, Graph.queue_endRun]
    exact List.Subset.refl _

/-! ## Runs -/

/-- Flushes within the run included, active effects stay subscribed to what they read. -/
theorem grounded_moves : Moves fun st st' : State V R (W × Diary V R) ↦
    st.Grounded → st'.Grounded where
  refl _ h := h
  trans _ _ _ h h' := h' ∘ h
  write _ s v h := h.write s v
  dequeue _ _ _ hd h := h.dequeue hd
  idle st e _ _ h := h.idle e st.graph.current
  rerun st e b _ _ _ hrun h := (hrun (h.begin e)).finish e st.graph.current b
  flush st st' _ hrun h := by
    have h₁ := hrun ⟨h.flagged, h.subscribed⟩
    exact ⟨h₁.flagged, h₁.subscribed⟩

theorem grounded_steady : Steady Q A fun st st' : State V R (W × Diary V R) ↦
    st.Grounded → st'.Grounded where
  refl _ h := h
  trans _ _ _ h h' := h' ∘ h
  change _ _ h := ⟨h.flagged, h.subscribed⟩
  newSignal _ v h := h.newSignal v
  read st s h := h.read s (st.graph.value s)
  stop _ e h := h.stop e
  effect st b _ hrun h := (hrun (h.begin_newEffect b)).finish _ st.graph.current b
  write _ hr _ _ _ _ _ hrun := grounded_moves.write_flush hr hrun

/-- Where nothing waits, what is fresh is current. -/
theorem Fresh.value_eq (h : st.Fresh X) (hq : st.graph.queue = []) {e : EffectId}
    (ha : st.graph.isActive e = true) (hX : ¬ X e) {x : SignalId × V}
    (hx : x ∈ st.diary.latestReads e) : st.graph.value x.1 = x.2 := by
  refine (h e ha hX x hx).resolve_right fun he ↦ ?_
  rw [hq] at he
  exact List.not_mem_nil he

theorem UpToDate.fresh (h : st.UpToDate) (X : EffectId → Prop) : st.Fresh X :=
  fun e ha _ x hx ↦ .inl (h e ha x hx)

/-- What holds while the queue is worked off. -/
structure Settling (X : EffectId → Prop) (st : State V R (W × Diary V R)) : Prop where
  flushing : st.graph.flushing = true
  grounded : st.Grounded
  fresh : st.Fresh X

namespace Settling

variable {e : EffectId} {g : Graph V R}

theorem finish (h : st.Settling X) (e : EffectId) (outer : Option EffectId) (b : R) :
    (st.finish e outer b).Settling X :=
  ⟨(Graph.flushing_endRun ..).trans h.flushing, h.grounded.finish e outer b,
    h.fresh.finish e outer b⟩

theorem dequeue_begin (h : st.Settling X) (hd : st.graph.dequeue? = some (e, g)) :
    ((st.withGraph g).begin e).Settling X := by
  refine ⟨?_, (h.grounded.dequeue hd).begin e, h.fresh.dequeue_begin hd⟩
  exact (Graph.Continues.dequeue hd).flushing.trans h.flushing

theorem dequeue_of_exempt (h : st.Settling X) (hd : st.graph.dequeue? = some (e, g))
    (he : g.isActive e = true → X e) : (st.withGraph g).Settling X := by
  refine ⟨?_, h.grounded.dequeue hd, h.fresh.dequeue_of_exempt hd he⟩
  exact (Graph.Continues.dequeue hd).flushing.trans h.flushing

theorem idle (h : st.Settling X) (e : EffectId) (outer : Option EffectId) :
    (st.withGraph ((st.graph.beginRun e).endRun e outer none)).Settling X :=
  ⟨(Graph.flushing_endRun ..).trans h.flushing, h.grounded.idle e outer, h.fresh.idle e outer⟩

end Settling

/-- While a flush is under way no other begins, so that a write is no more than itself. -/
theorem settling_steady (X : EffectId → Prop) :
    Steady Q A fun st st' : State V R (W × Diary V R) ↦ st.Settling X → st'.Settling X where
  refl _ h := h
  trans _ _ _ h h' := h' ∘ h
  change _ _ h := ⟨h.flushing, ⟨h.grounded.flagged, h.grounded.subscribed⟩, h.fresh⟩
  newSignal _ v h := ⟨h.flushing, h.grounded.newSignal v, h.fresh.newSignal h.grounded v⟩
  read st s h := by
    refine ⟨?_, h.grounded.read s _, h.fresh.read s⟩
    rw [graph_noteRead, graph_withGraph, Graph.flushing_track]
    exact h.flushing
  stop _ e h := ⟨h.flushing, h.grounded.stop e, h.fresh.stop e⟩
  effect st b st' hrun h := by
    have h' := hrun ⟨h.flushing, h.grounded.begin_newEffect b, h.fresh.begin_newEffect b⟩
    exact h'.finish _ st.graph.current b
  write r _ limit s v st st' hrun h := by
    have hf : (st.withGraph (st.graph.write s v)).graph.flushing = true :=
      (Graph.flushing_write ..).trans h.flushing
    rw [r.flush_of_flushing _ hf] at hrun
    obtain rfl := Option.some.inj hrun
    exact ⟨hf, h.grounded.write s v, h.fresh.write h.grounded s v⟩

end State

/-! ## The flush -/

namespace Graph

/-- Whether no body is taken out but those of effects of `X`, which all exist. -/
structure Lacks (g : Graph V R) (X : EffectId → Prop) : Prop where
  lt : ∀ e, X e → e.index < g.effects.size
  body : ∀ e, g.isActive e = true → (g.effect e).body = none → X e

theorem lacks_none {g : Graph V R}
    (hbodies : ∀ e, g.isActive e = true → (g.effect e).body.isSome = true) :
    g.Lacks fun _ ↦ False where
  lt _ := False.elim
  body e ha hnone := by
    have hsome := hbodies e ha
    rw [hnone] at hsome
    contradiction

/-- Bodies come back, so that no others are taken out. -/
theorem Continues.lacks {g g' : Graph V R} {X : EffectId → Prop} (h : g.Continues g')
    (hX : g.Lacks X) : g'.Lacks X where
  lt e he := (hX.lt e he).trans_le h.size
  body e ha hnone := by
    by_cases hlt : e.index < g.effects.size
    · obtain ⟨ha₀, hbody⟩ := h.old e hlt ha
      exact hX.body e ha₀ (hbody ▸ hnone)
    · have hsome := h.new e (Nat.not_lt.mp hlt) ha
      rw [hnone] at hsome
      contradiction

end Graph

namespace Runner

variable [Inhabited V]

open State in
/-- **The queue is worked off.** Each effect of the queue whose body is not taken out really runs,
so that in the end all of them are up to date. -/
theorem settling_of_drain {X : EffectId → Prop} {r : Runner V R (W × Diary V R) Q A}
    (hcontinues : r.BodiesKeep fun st st' ↦ st.graph.Continues st'.graph)
    (hsettling : r.BodiesKeep fun st st' ↦ st.Settling X → st'.Settling X) {limit : Nat}
    {st st' : State V R (W × Diary V R)} (hst : st.Settling X) (hX : st.graph.Lacks X)
    (hrun : r.drain limit st = some st') : st'.Settling X := by
  refine r.drain_induction
    (motive := fun st st' ↦ st.Settling X → st.graph.Lacks X → st'.Settling X) ?_ ?_ hrun hst hX
  · exact fun st _ hst _ ↦ hst
  · intro st e g st₁ st' hd heffect hrest hst hX
    have hg : g.Lacks X := (Graph.Continues.dequeue hd).lacks hX
    have hcont : st.graph.Continues st₁.graph :=
      (Graph.Continues.dequeue hd).trans (continues_moves.runEffect hcontinues heffect)
    refine hrest ?_ (hcont.lacks hX)
    rcases r.runEffect_cases heffect with ⟨ha, rfl⟩ | ⟨ha, hb, rfl⟩ | ⟨b, st₂, -, -, hbody, rfl⟩
    · -- It was stopped while it waited.
      exact hst.dequeue_of_exempt hd fun hc ↦ absurd (ha.symm.trans hc) Bool.noConfusion
    · -- It runs already, so it is one of `X`.
      exact (hst.dequeue_of_exempt hd fun hc ↦ hg.body e hc hb).idle e _
    · -- Whatever it had read is forgotten, and it is up to date with what it reads now.
      obtain ⟨st₃, hrun₃, rfl⟩ := hsettling b _ _ hbody
      exact (hrun₃ (hst.dequeue_begin hd)).finish e _ b

open State in
/-- A write outside of any flush, where no body is taken out but those of `X`. -/
theorem settling_of_flush {X : EffectId → Prop} {r : Runner V R (W × Diary V R) Q A}
    (hcontinues : r.BodiesKeep fun st st' ↦ st.graph.Continues st'.graph)
    (hsettling : r.BodiesKeep fun st st' ↦ st.Settling X → st'.Settling X) {limit : Nat}
    {s : SignalId} {v : V} {st st' : State V R (W × Diary V R)} (hgrounded : st.Grounded)
    (hflushing : st.graph.flushing = false) (hX : st.graph.Lacks X) (hst : st.Fresh X)
    (hrun : r.flush limit (st.withGraph (st.graph.write s v)) = some st') :
    st'.graph.queue = [] ∧ st'.Grounded ∧ st'.Fresh X := by
  have hwrite : (st.withGraph (st.graph.write s v)).graph.flushing = false :=
    (Graph.flushing_write ..).trans hflushing
  rw [flush_of_not_flushing _ _ hwrite] at hrun
  obtain ⟨st₁, hdrain, rfl⟩ := Option.map_eq_some_iff.mp hrun
  have hg := hgrounded.write s v
  have hst₁ : st₁.Settling X := by
    refine settling_of_drain hcontinues hsettling ?_ ?_ hdrain
    · exact ⟨rfl, ⟨hg.flagged, hg.subscribed⟩, hst.write hgrounded s v⟩
    · have hlacks := (continues_moves.write st s v).lacks hX
      exact ⟨hlacks.lt, hlacks.body⟩
  have hqueue : st₁.graph.queue = [] := r.queue_of_drain hdrain
  exact ⟨hqueue, ⟨hst₁.grounded.flagged, hst₁.grounded.subscribed⟩, hst₁.fresh⟩

end Runner

namespace Meaning

variable [Inhabited V] (m : Meaning V R W Q A)

open State in
/-- A write outside of any flush, to a state in which no body is taken out. -/
theorem write_upToDate {fuel : Nat} {s : SignalId} {v : V} {st st' : State V R (W × Diary V R)}
    (hgrounded : st.Grounded) (hflushing : st.graph.flushing = false)
    (hbodies : ∀ e, st.graph.isActive e = true → (st.graph.effect e).body.isSome = true)
    (hst : st.UpToDate)
    (hrun : m.observed.run fuel (Script.observed (.write s v (.done ()))) st = some ((), st')) :
    st'.graph.queue = [] ∧ st'.UpToDate := by
  obtain ⟨st₁, hflush, hdone⟩ := Option.bind_eq_some_iff.mp hrun
  obtain rfl : st₁ = st' := congrArg Prod.snd (Option.some.inj hdone)
  obtain ⟨hqueue, -, hfresh⟩ := Runner.settling_of_flush (continues_steady.runner m fuel).1
    ((settling_steady _).runner m fuel).1 hgrounded hflushing (Graph.lacks_none hbodies)
    (hst.fresh _) hflush
  exact ⟨hqueue, fun e ha x hx ↦ hfresh.value_eq hqueue ha not_false hx⟩

open State in
/-- **A write leaves no effect stale.** Take any state that a program leaves behind and in which all
active effects are up to date. If a write of any value to any signal returns, then nothing is queued
and nothing runs, and all effects that are active then are up to date, whatever bodies were run. -/
theorem upToDate_of_write {fuel₀ fuel : Nat} {p : Script V R W Q A α} {w : W} {a : α}
    {st : State V R (W × Diary V R)} {s : SignalId} {v : V} {last : State V R W}
    (hp : m.observed.run fuel₀ p.observed ⟨.empty, w, []⟩ = some (a, st)) (hst : st.UpToDate)
    (hwrite : m.run fuel (.write s v (.done ())) st.erase = some ((), last)) :
    ∃ st', m.observed.run fuel (Script.observed (.write s v (.done ()))) st = some ((), st') ∧
      st'.erase = last ∧ st'.graph.queue = [] ∧ st'.graph.current = none ∧ st'.UpToDate := by
  rw [← m.run_observed] at hwrite
  obtain ⟨⟨_, st'⟩, hrun, hlast⟩ := Option.map_eq_some_iff.mp hwrite
  have hbefore := m.run_of_steady continues_steady hp
  have hgrounded : st.Grounded := m.run_of_steady grounded_steady hp
    ⟨fun e he ↦ Bool.noConfusion he, fun e ha ↦ Bool.noConfusion ha⟩
  obtain ⟨hqueue, hst'⟩ := m.write_upToDate hgrounded hbefore.flushing
    (hbefore.bodies fun e ha ↦ Bool.noConfusion ha) hst hrun
  refine ⟨st', hrun, congrArg Prod.snd hlast, hqueue, ?_, hst'⟩
  exact (m.run_of_steady continues_steady hrun).current.trans hbefore.current

end Meaning

/-! ### A relay -/

/-- Two bodies: one passes on to the second signal what it reads from the first, the other reads the
second signal. -/
def relay : Meaning Nat Bool Unit Empty fun _ ↦ Unit where
  body passes :=
    if passes then .read ⟨0⟩ fun v ↦ .write ⟨1⟩ (v + 1) (.done ())
    else .read ⟨1⟩ fun _ ↦ .done ()
  call q := nomatch q

/-- Two signals and both effects; the write of the second effect makes the first run again. -/
def relayStart : Script Nat Bool Unit Empty (fun _ ↦ Unit) Unit :=
  .newSignal 0 fun _ ↦ .newSignal 0 fun _ ↦ .effect false fun _ ↦ .effect true fun _ ↦ .done ()

/-- The relay once it is set up. -/
def relayReady : State Nat Bool (Unit × Diary Nat Bool) :=
  ((relay.observed.run 3 relayStart.observed ⟨.empty, (), []⟩).get rfl).2

theorem relayReady_upToDate : relayReady.UpToDate := by
  intro e ha x hx
  have hlt : e.index < 2 := Graph.lt_of_isActive ha
  obtain ⟨_ | _ | n⟩ := e
  · obtain rfl := List.mem_singleton.mp (show x ∈ [(⟨1⟩, 1)] from hx)
    rfl
  · obtain rfl := List.mem_singleton.mp (show x ∈ [(⟨0⟩, 0)] from hx)
    rfl
  · exact absurd hlt (Nat.not_lt.mpr (Nat.le_add_left 2 n))

/-- The relay after a write to its first signal. -/
def relayed : State Nat Bool Unit :=
  ((relay.run 4 (.write ⟨0⟩ 5 (.done ())) relayReady.erase).get rfl).2

/-- Both effects of the relay have run again. -/
theorem relayed_upToDate :
    ∃ st', relay.observed.run 4 (Script.observed (.write ⟨0⟩ 5 (.done ()))) relayReady =
        some ((), st') ∧
      st'.erase = relayed ∧ st'.graph.queue = [] ∧ st'.graph.current = none ∧ st'.UpToDate := by
  have hready : relay.observed.run 3 relayStart.observed ⟨.empty, (), []⟩ =
    some ((), relayReady) := rfl
  have hwrite : relay.run 4 (.write ⟨0⟩ 5 (.done ())) relayReady.erase = some ((), relayed) := rfl
  exact relay.upToDate_of_write hready relayReady_upToDate hwrite

end LiveMarkup
