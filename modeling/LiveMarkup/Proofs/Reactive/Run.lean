import LiveMarkup.Reactive.Run

/-!
# What runs do, step by step

Equations for the runner, one for each way a step can go, so that no later proof opens it. From them
comes what a run of an effect can be (`Runner.runEffect_cases`), what a flush can be
(`Runner.flush_cases`), and the induction over the queue (`Runner.drain_induction`).
-/

namespace LiveMarkup

namespace State

variable {V R W : Type}

@[simp] theorem graph_withGraph (st : State V R W) (g : Graph V R) : (st.withGraph g).graph = g :=
  rfl

@[simp] theorem world_withGraph (st : State V R W) (g : Graph V R) :
    (st.withGraph g).world = st.world := rfl

@[simp] theorem withGraph_withGraph (st : State V R W) (g h : Graph V R) :
    (st.withGraph g).withGraph h = st.withGraph h := rfl

end State

namespace Runner

variable {V R W Q : Type} {A : Q → Type} {α β : Type} (r : Runner V R W Q A)

/-! ## Effects -/

theorem runEffect_of_inactive {e : EffectId} (st : State V R W)
    (h : st.graph.isActive e = false) : r.runEffect e st = some st := by
  simp [runEffect, h]

/-- A run that meets an effect without its body does nothing. -/
theorem runEffect_of_none {e : EffectId} (st : State V R W) (h : st.graph.isActive e = true)
    (hb : (st.graph.effect e).body = none) :
    r.runEffect e st =
      some (st.withGraph ((st.graph.beginRun e).endRun e st.graph.current none)) := by
  simp [runEffect, h, hb]

theorem runEffect_of_some {e : EffectId} {b : R} (st : State V R W)
    (h : st.graph.isActive e = true) (hb : (st.graph.effect e).body = some b) :
    r.runEffect e st = (r.body b (st.withGraph (st.graph.beginRun e))).map fun st' ↦
      st'.withGraph (st'.graph.endRun e st.graph.current (some b)) := by
  simp [runEffect, h, hb]

/-- What a run of an effect can be: the effect was stopped, its body is taken out, or the body
runs. -/
theorem runEffect_cases {e : EffectId} {st st' : State V R W}
    (h : r.runEffect e st = some st') :
    (st.graph.isActive e = false ∧ st' = st) ∨
      (st.graph.isActive e = true ∧ (st.graph.effect e).body = none ∧
        st' = st.withGraph ((st.graph.beginRun e).endRun e st.graph.current none)) ∨
      ∃ b st₁, st.graph.isActive e = true ∧ (st.graph.effect e).body = some b ∧
        r.body b (st.withGraph (st.graph.beginRun e)) = some st₁ ∧
        st' = st₁.withGraph (st₁.graph.endRun e st.graph.current (some b)) := by
  cases ha : st.graph.isActive e with
  | false =>
    rw [r.runEffect_of_inactive st ha] at h
    exact .inl ⟨rfl, (Option.some.inj h).symm⟩
  | true =>
    cases hb : (st.graph.effect e).body with
    | none =>
      rw [r.runEffect_of_none st ha hb] at h
      exact .inr (.inl ⟨rfl, rfl, (Option.some.inj h).symm⟩)
    | some b =>
      rw [r.runEffect_of_some st ha hb] at h
      obtain ⟨st₁, hbody, hst'⟩ := Option.map_eq_some_iff.mp h
      exact .inr (.inr ⟨b, st₁, rfl, rfl, hbody, hst'.symm⟩)

/-! ## The queue -/

theorem drain_of_none {limit : Nat} (st : State V R W) (h : st.graph.dequeue? = none) :
    r.drain limit st = some st := by
  unfold drain
  simp [h]

theorem drain_zero_of_some {e : EffectId} {g : Graph V R} (st : State V R W)
    (h : st.graph.dequeue? = some (e, g)) : r.drain 0 st = none := by
  unfold drain
  simp [h]

theorem drain_succ_of_some {limit : Nat} {e : EffectId} {g : Graph V R} (st : State V R W)
    (h : st.graph.dequeue? = some (e, g)) :
    r.drain (limit + 1) st = (r.runEffect e (st.withGraph g)).bind (r.drain limit) := by
  rw [drain]
  simp [h]

/-- Working off the queue ends where it is empty, and before that runs what is first in it. The
limit only says how often. -/
theorem drain_induction {motive : State V R W → State V R W → Prop}
    (rest : ∀ st, st.graph.dequeue? = none → motive st st)
    (step : ∀ st e g st₁ st', st.graph.dequeue? = some (e, g) →
      r.runEffect e (st.withGraph g) = some st₁ → motive st₁ st' → motive st st')
    {limit : Nat} {st st' : State V R W} (h : r.drain limit st = some st') : motive st st' := by
  induction limit generalizing st with
  | zero =>
    cases hd : st.graph.dequeue? with
    | none =>
      rw [r.drain_of_none st hd] at h
      exact Option.some.inj h ▸ rest st hd
    | some x =>
      rw [r.drain_zero_of_some st hd] at h
      contradiction
  | succ limit ih =>
    cases hd : st.graph.dequeue? with
    | none =>
      rw [r.drain_of_none st hd] at h
      exact Option.some.inj h ▸ rest st hd
    | some x =>
      rw [r.drain_succ_of_some st hd] at h
      obtain ⟨st₁, heffect, hdrain⟩ := Option.bind_eq_some_iff.mp h
      exact step st x.1 x.2 st₁ st' hd heffect (ih hdrain)

/-! ## Flushes -/

theorem flush_of_flushing {limit : Nat} (st : State V R W) (h : st.graph.flushing = true) :
    r.flush limit st = some st := by
  simp [flush, h]

theorem flush_of_not_flushing {limit : Nat} (st : State V R W) (h : st.graph.flushing = false) :
    r.flush limit st =
      (r.drain limit (st.withGraph { st.graph with flushing := true })).map fun st' ↦
        st'.withGraph { st'.graph with flushing := false } := by
  simp [flush, h]

/-- A flush works off the queue, unless one is under way. -/
theorem flush_cases {limit : Nat} {st st' : State V R W} (h : r.flush limit st = some st') :
    (st.graph.flushing = true ∧ st' = st) ∨
      ∃ st₁, st.graph.flushing = false ∧
        r.drain limit (st.withGraph { st.graph with flushing := true }) = some st₁ ∧
        st' = st₁.withGraph { st₁.graph with flushing := false } := by
  cases hf : st.graph.flushing with
  | true =>
    rw [r.flush_of_flushing st hf] at h
    exact .inl ⟨rfl, (Option.some.inj h).symm⟩
  | false =>
    rw [r.flush_of_not_flushing st hf] at h
    obtain ⟨st₁, hdrain, hst'⟩ := Option.map_eq_some_iff.mp h
    exact .inr ⟨st₁, rfl, hdrain, hst'.symm⟩

/-! ## Scripts -/

variable [Inhabited V]

@[simp] theorem run_done (limit : Nat) (a : α) (st : State V R W) :
    r.run limit (.done a) st = some (a, st) := rfl

/-- A script behind another runs where that one has ended. -/
theorem run_bind (limit : Nat) (p : Script V R W Q A α) (f : α → Script V R W Q A β)
    (st : State V R W) :
    r.run limit (p.bind f) st = (r.run limit p st).bind fun x ↦ r.run limit (f x.1) x.2 := by
  induction p generalizing st with
  | done a => rfl
  | look k ih => exact ih _ _ _
  | change h k ih => exact ih _
  | newSignal v k ih => exact ih _ _
  | read s k ih => exact ih _ _
  | write s v k ih =>
    simp only [Script.bind, run, Option.bind_assoc]
    exact congrArg _ (funext fun st ↦ ih st)
  | effect b k ih =>
    simp only [Script.bind, run, Option.bind_assoc]
    exact congrArg _ (funext fun st ↦ ih _ st)
  | stop e k ih => exact ih _
  | call q k ih =>
    simp only [Script.bind, run, Option.bind_assoc]
    exact congrArg _ (funext fun x ↦ ih _ _)

variable {r} in
/-- A run of two scripts, one behind the other, is taken apart. -/
theorem exists_of_run_bind {limit : Nat} {p : Script V R W Q A α} {f : α → Script V R W Q A β}
    {b : β} {st st' : State V R W} (h : r.run limit (p.bind f) st = some (b, st')) :
    ∃ a st₁, r.run limit p st = some (a, st₁) ∧ r.run limit (f a) st₁ = some (b, st') := by
  rw [run_bind] at h
  obtain ⟨⟨a, st₁⟩, hp, hf⟩ := Option.bind_eq_some_iff.mp h
  exact ⟨a, st₁, hp, hf⟩

end Runner

namespace Meaning

variable {V R W Q : Type} {A : Q → Type} [Inhabited V] (m : Meaning V R W Q A)

theorem runner_succ_body (fuel : Nat) (b : R) (st : State V R W) :
    (m.runner (fuel + 1)).body b st = ((m.runner fuel).run fuel (m.body b) st).map (·.2) := rfl

theorem runner_succ_call (fuel : Nat) (q : Q) (st : State V R W) :
    (m.runner (fuel + 1)).call q st = (m.runner fuel).run fuel (m.call q) st := rfl

variable {m}

/-- A run of two scripts, one behind the other, is taken apart. -/
theorem exists_of_run_bind {α β : Type} {fuel : Nat} {p : Script V R W Q A α}
    {f : α → Script V R W Q A β} {b : β} {st st' : State V R W}
    (h : m.run fuel (p.bind f) st = some (b, st')) :
    ∃ a st₁, m.run fuel p st = some (a, st₁) ∧ m.run fuel (f a) st₁ = some (b, st') :=
  Runner.exists_of_run_bind h

end Meaning

end LiveMarkup
