import LiveMarkup.Proofs.Reactive.Diary
import LiveMarkup.Proofs.Reactive.Graph

/-!
# What every run keeps

A relation between the states before and after a script holds of all scripts if it holds of single
steps and passes from what happens inside a body to the whole run of the effect. `Steady` lists what
has to be shown, and `Meaning.run_of_steady` is the induction over fuel and scripts, done once.

A write is one step together with the flush it may bring about. A relation that does not care in
which order the effects of a queue run needs to be shown only of what becomes of one effect at a
time; `Moves` lists that, and `Moves.write_flush` concludes to the write.

The first use of it is that nothing waits in the queue when code has ended (`drained_steady`).
-/

namespace LiveMarkup

variable {V R W Q : Type} {A : Q → Type} {α : Type}

/-- Whether a relation passes through every body that a runner runs. -/
def Runner.BodiesKeep (r : Runner V R (W × Diary V R) Q A)
    (P : State V R (W × Diary V R) → State V R (W × Diary V R) → Prop) : Prop :=
  ∀ b st st', r.body b st = some st' → ∃ st₁, P (st.note .began) st₁ ∧ st' = st₁.note .ended

theorem Runner.BodiesKeep.mono {r : Runner V R (W × Diary V R) Q A}
    {P P' : State V R (W × Diary V R) → State V R (W × Diary V R) → Prop} (h : r.BodiesKeep P)
    (hP : ∀ st st', P st st' → P' st st') : r.BodiesKeep P' := by
  intro b st st' hb
  obtain ⟨st₁, hst₁, hended⟩ := h b st st' hb
  exact ⟨st₁, hP _ _ hst₁, hended⟩

namespace State

/-- The state in which an effect begins to run. -/
def begin (st : State V R (W × Diary V R)) (e : EffectId) : State V R (W × Diary V R) :=
  (st.withGraph (st.graph.beginRun e)).note .began

/-- The state in which the run of an effect has ended. -/
def finish (st : State V R (W × Diary V R)) (e : EffectId) (outer : Option EffectId) (b : R) :
    State V R (W × Diary V R) :=
  (st.note .ended).withGraph (st.graph.endRun e outer (some b))

end State

/-- A new effect is active and has its body, so that its first run is a run of the body. -/
theorem Runner.runEffect_newEffect (r : Runner V R W Q A) (b : R) (st : State V R W) :
    r.runEffect (st.graph.newEffect b).1 (st.withGraph (st.graph.newEffect b).2) =
      (r.body b (st.withGraph ((st.graph.newEffect b).2.beginRun (st.graph.newEffect b).1))).map
        fun st' ↦ st'.withGraph
          (st'.graph.endRun (st.graph.newEffect b).1 st.graph.current (some b)) := by
  have hcell := st.graph.effect_newEffect_self b
  exact r.runEffect_of_some (st.withGraph (st.graph.newEffect b).2) (congrArg Effect.active hcell)
    (congrArg Effect.body hcell)

variable [Inhabited V]

/-- What a relation has to satisfy to hold between the states before and after every script. -/
structure Steady (Q : Type) (A : Q → Type)
    (P : State V R (W × Diary V R) → State V R (W × Diary V R) → Prop) : Prop where
  refl : ∀ st, P st st
  trans : ∀ st₁ st₂ st₃, P st₁ st₂ → P st₂ st₃ → P st₁ st₃
  change : ∀ st (f : W → W), P st { st with world := (f st.world.1, st.world.2) }
  newSignal : ∀ st v, P st (st.withGraph (st.graph.newSignal v).2)
  read : ∀ st s, P st ((st.withGraph (st.graph.track s)).noteRead s (st.graph.value s))
  stop : ∀ st e, P st (st.withGraph (st.graph.stop e))
  /-- The first run of an effect. -/
  effect : ∀ st b st',
    P ((st.withGraph (st.graph.newEffect b).2).begin (st.graph.newEffect b).1) st' →
      P st (st'.finish (st.graph.newEffect b).1 st.graph.current b)
  /-- A write with its flush. -/
  write : ∀ r : Runner V R (W × Diary V R) Q A, r.BodiesKeep P → ∀ limit s v st st',
    r.flush limit (st.withGraph (st.graph.write s v)) = some st' → P st st'

namespace Steady

variable {P : State V R (W × Diary V R) → State V R (W × Diary V R) → Prop}

theorem runEffect_new (h : Steady Q A P) {r : Runner V R (W × Diary V R) Q A}
    (hr : r.BodiesKeep P) {b : R} {st st' : State V R (W × Diary V R)}
    (hrun : r.runEffect (st.graph.newEffect b).1 (st.withGraph (st.graph.newEffect b).2) =
      some st') : P st st' := by
  rw [r.runEffect_newEffect] at hrun
  obtain ⟨st₁, hbody, rfl⟩ := Option.map_eq_some_iff.mp hrun
  obtain ⟨st₂, hP, rfl⟩ := hr b _ _ hbody
  exact h.effect st b st₂ hP

/-- What holds of bodies, calls and single steps holds of scripts. -/
theorem run_observed (h : Steady Q A P) {r : Runner V R (W × Diary V R) Q A}
    (hr : r.BodiesKeep P) (hcall : ∀ q st a st', r.call q st = some (a, st') → P st st')
    {limit : Nat} {p : Script V R W Q A α} {st st' : State V R (W × Diary V R)} {a : α}
    (hrun : r.run limit p.observed st = some (a, st')) : P st st' := by
  induction p generalizing st with
  | done _ =>
    obtain ⟨-, rfl⟩ := Prod.mk.inj (Option.some.inj hrun)
    exact h.refl st
  | look k ih => exact ih _ _ hrun
  | change f k ih => exact h.trans _ _ _ (h.change st f) (ih hrun)
  | newSignal v k ih => exact h.trans _ _ _ (h.newSignal st v) (ih _ hrun)
  | read s k ih =>
    rw [Script.observed, Runner.run, Runner.run_noteRead] at hrun
    exact h.trans _ _ _ (h.read st s) (ih _ hrun)
  | write s v k ih =>
    obtain ⟨st₁, hflush, hk⟩ := Option.bind_eq_some_iff.mp hrun
    exact h.trans _ _ _ (h.write r hr _ _ _ _ _ hflush) (ih hk)
  | effect b k ih =>
    obtain ⟨st₁, heffect, hk⟩ := Option.bind_eq_some_iff.mp hrun
    exact h.trans _ _ _ (h.runEffect_new hr heffect) (ih _ hk)
  | stop e k ih => exact h.trans _ _ _ (h.stop st e) (ih hrun)
  | call q k ih =>
    obtain ⟨x, hq, hk⟩ := Option.bind_eq_some_iff.mp hrun
    exact h.trans _ _ _ (hcall q st x.1 x.2 hq) (ih _ hk)

/-- By induction on the fuel: a body or call runs on one unit less. -/
theorem runner (h : Steady Q A P) (m : Meaning V R W Q A) (fuel : Nat) :
    (m.observed.runner fuel).BodiesKeep P ∧
      ∀ q st a st', (m.observed.runner fuel).call q st = some (a, st') → P st st' := by
  induction fuel with
  | zero => exact ⟨fun _ _ _ hb ↦ (nomatch hb), fun _ _ _ _ hq ↦ (nomatch hq)⟩
  | succ fuel ih =>
    constructor
    · intro b st st' hb
      rw [m.observed_runner_succ_body] at hb
      obtain ⟨⟨_, st₁⟩, hx, rfl⟩ := Option.map_eq_some_iff.mp hb
      exact ⟨st₁, h.run_observed ih.1 ih.2 hx, rfl⟩
    · intro q st a st' hq
      exact h.run_observed ih.1 ih.2 hq

end Steady

/-- **What every run keeps.** A steady relation holds between the states before and after any run of
an observed script. -/
theorem Meaning.run_of_steady {P : State V R (W × Diary V R) → State V R (W × Diary V R) → Prop}
    (h : Steady Q A P) (m : Meaning V R W Q A) {fuel : Nat} {p : Script V R W Q A α}
    {st st' : State V R (W × Diary V R)} {a : α}
    (hrun : m.observed.run fuel p.observed st = some (a, st')) : P st st' :=
  h.run_observed (h.runner m fuel).1 (h.runner m fuel).2 hrun

/-! ## Flushes -/

/-- What a relation has to satisfy to pass through flushes, whatever effects they run. -/
structure Moves (P : State V R (W × Diary V R) → State V R (W × Diary V R) → Prop) : Prop where
  refl : ∀ st, P st st
  trans : ∀ st₁ st₂ st₃, P st₁ st₂ → P st₂ st₃ → P st₁ st₃
  write : ∀ st s v, P st (st.withGraph (st.graph.write s v))
  dequeue : ∀ (st : State V R (W × Diary V R)) e g, st.graph.dequeue? = some (e, g) →
    P st (st.withGraph g)
  /-- A run of an effect whose body is taken out. -/
  idle : ∀ (st : State V R (W × Diary V R)) e, st.graph.isActive e = true →
    (st.graph.effect e).body = none →
      P st (st.withGraph ((st.graph.beginRun e).endRun e st.graph.current none))
  /-- A run of an effect whose body is there. -/
  rerun : ∀ (st : State V R (W × Diary V R)) e b st', st.graph.isActive e = true →
    (st.graph.effect e).body = some b → P (st.begin e) st' →
      P st (st'.finish e st.graph.current b)
  flush : ∀ (st st' : State V R (W × Diary V R)), st.graph.flushing = false →
    P (st.withGraph { st.graph with flushing := true }) st' →
      P st (st'.withGraph { st'.graph with flushing := false })

namespace Moves

variable {P : State V R (W × Diary V R) → State V R (W × Diary V R) → Prop}

theorem runEffect (h : Moves P) {r : Runner V R (W × Diary V R) Q A}
    (hr : r.BodiesKeep P) {e : EffectId} {st st' : State V R (W × Diary V R)}
    (hrun : r.runEffect e st = some st') : P st st' := by
  rcases r.runEffect_cases hrun with ⟨-, rfl⟩ | ⟨ha, hb, rfl⟩ | ⟨b, st₁, ha, hb, hbody, rfl⟩
  · exact h.refl _
  · exact h.idle st e ha hb
  · obtain ⟨st₂, hP, rfl⟩ := hr b _ _ hbody
    exact h.rerun st e b st₂ ha hb hP

theorem drain (h : Moves P) {r : Runner V R (W × Diary V R) Q A} (hr : r.BodiesKeep P)
    {limit : Nat} {st st' : State V R (W × Diary V R)} (hrun : r.drain limit st = some st') :
    P st st' := by
  refine r.drain_induction (fun st _ ↦ h.refl st) (fun st e g st₁ st' hd heffect hrest ↦ ?_) hrun
  exact h.trans _ _ _ (h.dequeue st e g hd) (h.trans _ _ _ (h.runEffect hr heffect) hrest)

/-- What passes through the write and through each effect passes through the write with its
flush. -/
theorem write_flush (h : Moves P) {r : Runner V R (W × Diary V R) Q A} (hr : r.BodiesKeep P)
    {limit : Nat} {s : SignalId} {v : V} {st st' : State V R (W × Diary V R)}
    (hrun : r.flush limit (st.withGraph (st.graph.write s v)) = some st') : P st st' := by
  refine h.trans _ _ _ (h.write st s v) ?_
  rcases r.flush_cases hrun with ⟨-, rfl⟩ | ⟨st₁, hf, hdrain, rfl⟩
  · exact h.refl _
  · exact h.flush _ _ hf (h.drain hr hdrain)

end Moves

/-! ## What waits -/

/-- Whether nothing waits in the queue, unless it is being worked off. -/
def Graph.Drained (g : Graph V R) : Prop := g.flushing = false → g.queue = []

omit [Inhabited V] in
theorem Runner.queue_of_drain {r : Runner V R W Q A} {limit : Nat} {st st' : State V R W}
    (hrun : r.drain limit st = some st') : st'.graph.queue = [] := by
  refine r.drain_induction (motive := fun _ st' ↦ st'.graph.queue = []) ?_ ?_ hrun
  · exact fun st hd ↦ Graph.dequeue?_eq_none_iff.mp hd
  · exact fun _ _ _ _ _ _ _ hrest ↦ hrest

/-- Only writes queue effects, and a write outside of any flush works off what it has queued. -/
theorem drained_steady : Steady Q A fun (st st' : State V R (W × Diary V R)) ↦
    st.graph.Drained → st'.graph.Drained where
  refl _ h := h
  trans _ _ _ h h' hst := h' (h hst)
  change _ _ h := h
  newSignal _ _ h := h
  read st s h := by
    rw [State.graph_noteRead, State.graph_withGraph]
    intro hflushing
    rw [Graph.flushing_track] at hflushing
    rw [Graph.queue_track]
    exact h hflushing
  stop _ _ h := h
  effect st b st' hrun h := by
    intro hflushing
    rw [State.finish, State.graph_withGraph, Graph.flushing_endRun] at hflushing
    rw [State.finish, State.graph_withGraph, Graph.queue_endRun]
    exact hrun h hflushing
  write r _ limit s v st st' hflush h := by
    rcases r.flush_cases hflush with ⟨hf, rfl⟩ | ⟨st₁, -, hdrain, rfl⟩
    · exact fun hflushing ↦ absurd (hf.symm.trans hflushing) Bool.noConfusion
    · have hqueue : st₁.graph.queue = [] := r.queue_of_drain hdrain
      exact fun _ ↦ hqueue

/-- Nothing waits in the queue once code has ended, if nothing did before. -/
theorem Meaning.drained_of_run (m : Meaning V R W Q A) {fuel : Nat} {p : Script V R W Q A α}
    {st st' : State V R W} {a : α} (hrun : m.run fuel p st = some (a, st'))
    (hst : st.graph.Drained) : st'.graph.Drained := by
  have hobserved := m.run_observed fuel p ⟨st.graph, st.world, []⟩
  rw [show State.erase ⟨st.graph, st.world, []⟩ = st from rfl, hrun] at hobserved
  obtain ⟨x, hx, hlast⟩ := Option.map_eq_some_iff.mp hobserved
  obtain rfl : x.2.erase = st' := congrArg Prod.snd hlast
  exact m.run_of_steady drained_steady hx hst

end LiveMarkup
