import LiveMarkup.Proofs.Reactive.Fuel
import LiveMarkup.Proofs.Reactive.Graph

/-!
# Histories of runs

What happens inside a run, and how the graph stands meanwhile, is not to be seen in the state that
the run leaves behind. `Meaning.Runs` gives the rules by which code is carried out, without fuel and
with the history of what happens: every step of a script, every body of an effect that begins and
ends, and every flush that is over, each with the graph right after it. Code ends with some fuel
exactly if the rules carry it to that end (`Meaning.exists_fuel_iff`), and then it has a history.
Code that does not end has none, but it gets somewhere: `Meaning.Reaches` gives the histories of
what code has done so far, at whatever depth.

A statement about every point of a run is an induction over these rules. It is done once: a
`History.Invariant` is what single steps keep, and it holds at every point that code comes to
(`Meaning.Runs.throughout`, `Meaning.Reaches.throughout`). What an invariant says of a point may
depend on all that has happened before. A body ends where its effect has begun; what happened in
between is balanced (`History.Balanced`), so the bodies that run are a stack.
-/

namespace LiveMarkup

variable {V R W Q : Type} {A : Q → Type} {α : Type}

/-- What happens while code runs. -/
inductive Occurrence (V : Type) where
  /-- The code has looked at the graph and the world. -/
  | looked
  /-- The code has changed the world. -/
  | changed
  /-- A signal was made. -/
  | made (s : SignalId)
  /-- A signal was read. -/
  | read (s : SignalId) (value : V)
  /-- A signal was written, and its subscribers were queued. -/
  | wrote (s : SignalId) (value : V)
  /-- The flush that a write has brought about is over. -/
  | settled
  /-- An effect was made, and is about to run for the first time. -/
  | created (e : EffectId)
  /-- The first run of a new effect is over. -/
  | registered (e : EffectId)
  /-- The body of an effect begins. -/
  | began (e : EffectId)
  /-- The body of an effect has ended. -/
  | ended (e : EffectId)
  /-- An effect was stopped. -/
  | stopped (e : EffectId)

/-- A point of a run: what has just happened, and the graph. -/
structure Point (V R : Type) where
  what : Occurrence V
  graph : Graph V R

/-- The points of a run, in order. -/
abbrev History (V R : Type) : Type := List (Point V R)

/-! ## The rules -/

/-- A step of a script during which nothing else runs, with the points that it passes. -/
inductive Script.Step [Inhabited V] : Script V R W Q A α → State V R W → History V R →
    Script V R W Q A α → State V R W → Prop where
  | look (k : Graph V R → W → Script V R W Q A α) (st : State V R W) :
      Step (.look k) st [⟨.looked, st.graph⟩] (k st.graph st.world) st
  | change (f : W → W) (k : Script V R W Q A α) (st : State V R W) :
      Step (.change f k) st [⟨.changed, st.graph⟩] k { st with world := f st.world }
  | newSignal (v : V) (k : SignalId → Script V R W Q A α) (st : State V R W) :
      Step (.newSignal v k) st [⟨.made (st.graph.newSignal v).1, (st.graph.newSignal v).2⟩]
        (k (st.graph.newSignal v).1) (st.withGraph (st.graph.newSignal v).2)
  | read (s : SignalId) (k : V → Script V R W Q A α) (st : State V R W)
      (exists_signal : s.index < st.graph.signals.size) :
      Step (.read s k) st [⟨.read s (st.graph.value s), st.graph.track s⟩]
        (k (st.graph.value s)) (st.withGraph (st.graph.track s))
  /-- An identity that no signal has yet is nothing that can be read. -/
  | readNothing (s : SignalId) (k : V → Script V R W Q A α) (st : State V R W)
      (missing : ¬ s.index < st.graph.signals.size) :
      Step (.read s k) st [] (k (st.graph.value s)) st
  /-- A write while the queue is being worked off. -/
  | write (s : SignalId) (v : V) (k : Script V R W Q A α) (st : State V R W)
      (flushing : st.graph.flushing = true) :
      Step (.write s v k) st [⟨.wrote s v, st.graph.write s v⟩] k
        (st.withGraph (st.graph.write s v))
  | stop (e : EffectId) (k : Script V R W Q A α) (st : State V R W)
      (exists_effect : e.index < st.graph.effects.size) :
      Step (.stop e k) st [⟨.stopped e, st.graph.stop e⟩] k (st.withGraph (st.graph.stop e))
  /-- An identity that no effect has yet is nothing that can be stopped. -/
  | stopNothing (e : EffectId) (k : Script V R W Q A α) (st : State V R W)
      (missing : ¬ e.index < st.graph.effects.size) : Step (.stop e k) st [] k st

/-- What can be carried out: a script; a run of an effect, or of all effects of the queue and those
they queue, with the answer that is given afterwards. -/
inductive Job (V R W Q : Type) (A : Q → Type) (α : Type) where
  | script (p : Script V R W Q A α)
  | effect (e : EffectId) (answer : α)
  | drain (answer : α)

/-- How a job is carried out: from which state, with which history, to which answer and state. -/
inductive Meaning.Runs [Inhabited V] (m : Meaning V R W Q A) : {α : Type} → Job V R W Q A α →
    State V R W → History V R → α → State V R W → Prop where
  | done {α : Type} (a : α) (st : State V R W) : m.Runs (.script (.done a)) st [] a st
  | step {α : Type} {p p' : Script V R W Q A α} {st st₁ st' : State V R W} {τ₁ τ₂ : History V R}
      {a : α} (first : p.Step st τ₁ p' st₁) (next : m.Runs (.script p') st₁ τ₂ a st') :
      m.Runs (.script p) st (τ₁ ++ τ₂) a st'
  /-- A write outside of any flush works off the queue. -/
  | write {α : Type} {s : SignalId} {v : V} {k : Script V R W Q A α} {st st₁ st' : State V R W}
      {τ₁ τ₂ : History V R} {a : α} (idle : st.graph.flushing = false)
      (flush : m.Runs (.drain ()) (st.withGraph { st.graph.write s v with flushing := true })
        τ₁ () st₁)
      (next : m.Runs (.script k) (st₁.withGraph { st₁.graph with flushing := false }) τ₂ a st') :
      m.Runs (.script (.write s v k)) st
        (⟨.wrote s v, st.graph.write s v⟩ ::
          (τ₁ ++ ⟨.settled, { st₁.graph with flushing := false }⟩ :: τ₂)) a st'
  | effect {α : Type} {b : R} {k : EffectId → Script V R W Q A α} {st st₁ st' : State V R W}
      {τ₁ τ₂ : History V R} {a : α}
      (first : m.Runs (.effect (st.graph.newEffect b).1 ())
        (st.withGraph (st.graph.newEffect b).2) τ₁ () st₁)
      (next : m.Runs (.script (k (st.graph.newEffect b).1)) st₁ τ₂ a st') :
      m.Runs (.script (.effect b k)) st
        (⟨.created (st.graph.newEffect b).1, (st.graph.newEffect b).2⟩ ::
          (τ₁ ++ ⟨.registered (st.graph.newEffect b).1, st₁.graph⟩ :: τ₂)) a st'
  | call {α : Type} {q : Q} {k : A q → Script V R W Q A α} {st st₁ st' : State V R W}
      {τ₁ τ₂ : History V R} {x : A q} {a : α} (answer : m.Runs (.script (m.call q)) st τ₁ x st₁)
      (next : m.Runs (.script (k x)) st₁ τ₂ a st') :
      m.Runs (.script (.call q k)) st (τ₁ ++ τ₂) a st'
  /-- The effect was stopped. -/
  | inactive {α : Type} {e : EffectId} {a : α} {st : State V R W}
      (stopped : st.graph.isActive e = false) : m.Runs (.effect e a) st [] a st
  /-- The body of the effect is taken out, so that there is nothing to run. -/
  | bodiless {α : Type} {e : EffectId} {a : α} {st : State V R W}
      (active : st.graph.isActive e = true) (no_body : (st.graph.effect e).body = none) :
      m.Runs (.effect e a) st [] a st
  | body {α : Type} {e : EffectId} {b : R} {a : α} {st st₁ : State V R W} {τ : History V R}
      (active : st.graph.isActive e = true) (has_body : (st.graph.effect e).body = some b)
      (inner : m.Runs (.script (m.body b)) (st.withGraph (st.graph.beginRun e)) τ () st₁) :
      m.Runs (.effect e a) st
        (⟨.began e, st.graph.beginRun e⟩ ::
          (τ ++ [⟨.ended e, st₁.graph.endRun e st.graph.current (some b)⟩])) a
        (st₁.withGraph (st₁.graph.endRun e st.graph.current (some b)))
  | drained {α : Type} {a : α} {st : State V R W} (empty : st.graph.dequeue? = none) :
      m.Runs (.drain a) st [] a st
  | drain {α : Type} {e : EffectId} {g : Graph V R} {a : α} {st st₁ st' : State V R W}
      {τ₁ τ₂ : History V R} (next : st.graph.dequeue? = some (e, g))
      (first : m.Runs (.effect e ()) (st.withGraph g) τ₁ () st₁)
      (rest : m.Runs (.drain a) st₁ τ₂ a st') : m.Runs (.drain a) st (τ₁ ++ τ₂) a st'

/-- What has happened when a job has been carried out in part, whether or not it ever ends. Of the
parts of a job that follow each other, those before the last are over. -/
inductive Meaning.Reaches [Inhabited V] (m : Meaning V R W Q A) : {α : Type} → Job V R W Q A α →
    State V R W → History V R → Prop where
  | start {α : Type} (j : Job V R W Q A α) (st : State V R W) : m.Reaches j st []
  | all {α : Type} {j : Job V R W Q A α} {st st' : State V R W} {τ : History V R} {a : α}
      (runs : m.Runs j st τ a st') : m.Reaches j st τ
  | step {α : Type} {p p' : Script V R W Q A α} {st st₁ : State V R W} {τ₁ τ₂ : History V R}
      (first : p.Step st τ₁ p' st₁) (next : m.Reaches (.script p') st₁ τ₂) :
      m.Reaches (.script p) st (τ₁ ++ τ₂)
  | flush {α : Type} {s : SignalId} {v : V} {k : Script V R W Q A α} {st : State V R W}
      {τ : History V R} (idle : st.graph.flushing = false)
      (flush : m.Reaches (.drain ()) (st.withGraph { st.graph.write s v with flushing := true })
        τ) :
      m.Reaches (.script (.write s v k)) st (⟨.wrote s v, st.graph.write s v⟩ :: τ)
  | write {α : Type} {s : SignalId} {v : V} {k : Script V R W Q A α} {st st₁ : State V R W}
      {τ₁ τ₂ : History V R} (idle : st.graph.flushing = false)
      (flush : m.Runs (.drain ()) (st.withGraph { st.graph.write s v with flushing := true })
        τ₁ () st₁)
      (next : m.Reaches (.script k) (st₁.withGraph { st₁.graph with flushing := false }) τ₂) :
      m.Reaches (.script (.write s v k)) st
        (⟨.wrote s v, st.graph.write s v⟩ ::
          (τ₁ ++ ⟨.settled, { st₁.graph with flushing := false }⟩ :: τ₂))
  | first {α : Type} {b : R} {k : EffectId → Script V R W Q A α} {st : State V R W}
      {τ : History V R}
      (first : m.Reaches (.effect (st.graph.newEffect b).1 ())
        (st.withGraph (st.graph.newEffect b).2) τ) :
      m.Reaches (.script (.effect b k)) st
        (⟨.created (st.graph.newEffect b).1, (st.graph.newEffect b).2⟩ :: τ)
  | effect {α : Type} {b : R} {k : EffectId → Script V R W Q A α} {st st₁ : State V R W}
      {τ₁ τ₂ : History V R}
      (first : m.Runs (.effect (st.graph.newEffect b).1 ())
        (st.withGraph (st.graph.newEffect b).2) τ₁ () st₁)
      (next : m.Reaches (.script (k (st.graph.newEffect b).1)) st₁ τ₂) :
      m.Reaches (.script (.effect b k)) st
        (⟨.created (st.graph.newEffect b).1, (st.graph.newEffect b).2⟩ ::
          (τ₁ ++ ⟨.registered (st.graph.newEffect b).1, st₁.graph⟩ :: τ₂))
  | answer {α : Type} {q : Q} {k : A q → Script V R W Q A α} {st : State V R W}
      {τ : History V R} (answer : m.Reaches (.script (m.call q)) st τ) :
      m.Reaches (.script (.call q k)) st τ
  | call {α : Type} {q : Q} {k : A q → Script V R W Q A α} {st st₁ : State V R W}
      {τ₁ τ₂ : History V R} {x : A q} (answer : m.Runs (.script (m.call q)) st τ₁ x st₁)
      (next : m.Reaches (.script (k x)) st₁ τ₂) :
      m.Reaches (.script (.call q k)) st (τ₁ ++ τ₂)
  | body {α : Type} {e : EffectId} {b : R} {a : α} {st : State V R W} {τ : History V R}
      (active : st.graph.isActive e = true) (has_body : (st.graph.effect e).body = some b)
      (inner : m.Reaches (.script (m.body b)) (st.withGraph (st.graph.beginRun e)) τ) :
      m.Reaches (.effect e a) st (⟨.began e, st.graph.beginRun e⟩ :: τ)
  | next {α : Type} {e : EffectId} {g : Graph V R} {a : α} {st : State V R W}
      {τ : History V R} (next : st.graph.dequeue? = some (e, g))
      (first : m.Reaches (.effect e ()) (st.withGraph g) τ) :
      m.Reaches (.drain a) st τ
  | drain {α : Type} {e : EffectId} {g : Graph V R} {a : α} {st st₁ : State V R W}
      {τ₁ τ₂ : History V R} (next : st.graph.dequeue? = some (e, g))
      (first : m.Runs (.effect e ()) (st.withGraph g) τ₁ () st₁)
      (rest : m.Reaches (.drain a) st₁ τ₂) : m.Reaches (.drain a) st (τ₁ ++ τ₂)

/-! ## The rules and the fuel -/

/-- A change that leaves an item as it is, if there is one, changes nothing. -/
private theorem modify_eq_self {β : Type} {xs : Array β} {i : Nat} {f : β → β}
    (h : ∀ hi : i < xs.size, f xs[i] = xs[i]) : xs.modify i f = xs := by
  refine Array.ext Array.size_modify fun j hj hj' ↦ ?_
  rw [Array.getElem_modify]
  split
  · rename_i hij
    subst hij
    exact h hj'
  · rfl

namespace Graph

variable {g : Graph V R}

/-- A read of what is no signal changes nothing. -/
theorem track_of_not_lt {s : SignalId} (h : ¬ s.index < g.signals.size) : g.track s = g := by
  cases hc : g.current with
  | none => exact track_of_none hc s
  | some e =>
    rw [track_of_some hc, modify_eq_self fun hlt ↦ absurd hlt h]

/-- Stopping what is no effect changes nothing. -/
theorem stop_of_not_lt {e : EffectId} (h : ¬ e.index < g.effects.size) : g.stop e = g := by
  rw [stop, modifyEffect, modify_eq_self fun hlt ↦ absurd hlt h]

/-- A run that meets an effect without its body changes nothing. -/
theorem endRun_beginRun {e : EffectId} (ha : g.isActive e = true)
    (hb : (g.effect e).body = none) : (g.beginRun e).endRun e g.current none = g := by
  have hlt := lt_of_isActive ha
  have hcell : ({ g.effects[e.index] with body := none } : Effect R) = g.effects[e.index] := by
    have hbody : g.effects[e.index].body = none := by
      simpa [effect, Array.getD, hlt] using hb
    rw [← hbody]
  have hbegin : g.beginRun e = { g with current := some e } := by
    rw [beginRun, modifyEffect, modify_eq_self fun _ ↦ hcell]
  rw [hbegin, endRun_of_active (g := { g with current := some e }) ha, modifyEffect,
    modify_eq_self fun _ ↦ hcell]

end Graph

variable [Inhabited V]

/-- A runner passes over a step to what is left to do. -/
theorem Script.Step.run_eq {p p' : Script V R W Q A α} {st st' : State V R W} {τ : History V R}
    (h : p.Step st τ p' st') (r : Runner V R W Q A) (limit : Nat) :
    r.run limit p st = r.run limit p' st' := by
  cases h with
  | look | change | newSignal | read | stop => rfl
  | readNothing s k _ hs =>
    rw [Runner.run, Graph.track_of_not_lt hs]
    rfl
  | write s v k _ hf =>
    rw [Runner.run, Runner.flush_of_flushing _ _ ((Graph.flushing_write ..).trans hf)]
    rfl
  | stopNothing e k _ he =>
    rw [Runner.run, Graph.stop_of_not_lt he]
    rfl

/-- Carries out a job with a runner. -/
def Job.carry (r : Runner V R W Q A) (limit : Nat) (st : State V R W) :
    Job V R W Q A α → Option (α × State V R W)
  | .script p => r.run limit p st
  | .effect e a => (r.runEffect e st).map (a, ·)
  | .drain a => (r.drain limit st).map (a, ·)

namespace Meaning

variable {m : Meaning V R W Q A}

/-- Whether the rules carry a runner's bodies and calls to the same ends. -/
structure Traces (m : Meaning V R W Q A) (r : Runner V R W Q A) : Prop where
  body : ∀ b st st', r.body b st = some st' → ∃ τ, m.Runs (.script (m.body b)) st τ () st'
  call : ∀ q st a st', r.call q st = some (a, st') → ∃ τ, m.Runs (.script (m.call q)) st τ a st'

namespace Traces

variable {r : Runner V R W Q A} {st st' : State V R W}

theorem runEffect (h : m.Traces r) {e : EffectId} (hrun : r.runEffect e st = some st') (a : α) :
    ∃ τ, m.Runs (.effect e a) st τ a st' := by
  rcases r.runEffect_cases hrun with ⟨ha, rfl⟩ | ⟨ha, hb, rfl⟩ | ⟨b, st₁, ha, hb, hbody, rfl⟩
  · exact ⟨_, .inactive ha⟩
  · rw [Graph.endRun_beginRun ha hb]
    exact ⟨_, .bodiless ha hb⟩
  · obtain ⟨τ, hτ⟩ := h.body b _ _ hbody
    exact ⟨_, .body ha hb hτ⟩

theorem drain (h : m.Traces r) {limit : Nat} (hrun : r.drain limit st = some st') (a : α) :
    ∃ τ, m.Runs (.drain a) st τ a st' := by
  refine r.drain_induction (motive := fun st st' ↦ ∃ τ, m.Runs (.drain a) st τ a st') ?_ ?_ hrun
  · intro st hd
    exact ⟨_, .drained hd⟩
  · rintro st e g st₁ st' hd heffect ⟨τ₂, hrest⟩
    obtain ⟨τ₁, hfirst⟩ := h.runEffect heffect ()
    exact ⟨_, .drain hd hfirst hrest⟩

/-- A script that a runner carries to its end has a history. -/
theorem run (h : m.Traces r) {limit : Nat} {p : Script V R W Q A α} {a : α}
    (hrun : r.run limit p st = some (a, st')) : ∃ τ, m.Runs (.script p) st τ a st' := by
  induction p generalizing st with
  | done b =>
    obtain ⟨rfl, rfl⟩ := Prod.mk.inj (Option.some.inj hrun)
    exact ⟨_, .done b st⟩
  | look k ih =>
    obtain ⟨τ, hτ⟩ := ih _ _ hrun
    exact ⟨_, .step (.look k st) hτ⟩
  | change f k ih =>
    obtain ⟨τ, hτ⟩ := ih hrun
    exact ⟨_, .step (.change f k st) hτ⟩
  | newSignal v k ih =>
    obtain ⟨τ, hτ⟩ := ih _ hrun
    exact ⟨_, .step (.newSignal v k st) hτ⟩
  | read s k ih =>
    obtain ⟨τ, hτ⟩ := ih _ hrun
    by_cases hs : s.index < st.graph.signals.size
    · exact ⟨_, .step (.read s k st hs) hτ⟩
    · rw [Graph.track_of_not_lt hs] at hτ
      exact ⟨_, .step (.readNothing s k st hs) hτ⟩
  | write s v k ih =>
    obtain ⟨st₁, hflush, hk⟩ := Option.bind_eq_some_iff.mp hrun
    obtain ⟨τ₂, hτ₂⟩ := ih hk
    rcases r.flush_cases hflush with ⟨hf, rfl⟩ | ⟨st₂, hf, hdrain, rfl⟩
    · exact ⟨_, .step (.write s v k st ((Graph.flushing_write ..).symm.trans hf)) hτ₂⟩
    · obtain ⟨τ₁, hτ₁⟩ := h.drain hdrain ()
      exact ⟨_, .write ((Graph.flushing_write ..).symm.trans hf) hτ₁ hτ₂⟩
  | effect b k ih =>
    obtain ⟨st₁, heffect, hk⟩ := Option.bind_eq_some_iff.mp hrun
    obtain ⟨τ₁, hτ₁⟩ := h.runEffect heffect ()
    obtain ⟨τ₂, hτ₂⟩ := ih _ hk
    exact ⟨_, .effect hτ₁ hτ₂⟩
  | stop e k ih =>
    obtain ⟨τ, hτ⟩ := ih hrun
    by_cases he : e.index < st.graph.effects.size
    · exact ⟨_, .step (.stop e k st he) hτ⟩
    · rw [Graph.stop_of_not_lt he] at hτ
      exact ⟨_, .step (.stopNothing e k st he) hτ⟩
  | call q k ih =>
    obtain ⟨⟨x, st₁⟩, hq, hk⟩ := Option.bind_eq_some_iff.mp hrun
    obtain ⟨τ₁, hτ₁⟩ := h.call q _ _ _ hq
    obtain ⟨τ₂, hτ₂⟩ := ih _ hk
    exact ⟨_, .call hτ₁ hτ₂⟩

end Traces

/-- By induction on the fuel: a body or call runs on one unit less. -/
theorem traces_runner (m : Meaning V R W Q A) (fuel : Nat) : m.Traces (m.runner fuel) := by
  induction fuel with
  | zero => exact ⟨fun _ _ _ hb ↦ (nomatch hb), fun _ _ _ _ hq ↦ (nomatch hq)⟩
  | succ fuel ih =>
    constructor
    · intro b st st' hb
      rw [runner_succ_body] at hb
      obtain ⟨⟨⟨⟩, st₁⟩, hrun, rfl⟩ := Option.map_eq_some_iff.mp hb
      exact ih.run hrun
    · intro q st a st' hq
      exact ih.run hq

/-- More fuel carries a job to the same end. -/
theorem carry_mono {fuel fuel' : Nat} (h : fuel ≤ fuel') {j : Job V R W Q A α}
    {st : State V R W} {x : α × State V R W}
    (hrun : j.carry (m.runner fuel) fuel st = some x) :
    j.carry (m.runner fuel') fuel' st = some x := by
  have hextends := m.extends_runner h
  cases j with
  | script p => exact hextends.run h hrun
  | effect e a =>
    obtain ⟨st', heffect, rfl⟩ := Option.map_eq_some_iff.mp hrun
    exact Option.map_eq_some_iff.mpr ⟨st', hextends.runEffect heffect, rfl⟩
  | drain a =>
    obtain ⟨st', hdrain, rfl⟩ := Option.map_eq_some_iff.mp hrun
    exact Option.map_eq_some_iff.mpr ⟨st', hextends.drain h hdrain, rfl⟩

/-- What the rules carry out ends with some fuel. Two parts that end take the larger amount. -/
theorem Runs.exists_carry {j : Job V R W Q A α} {st st' : State V R W} {τ : History V R} {a : α}
    (h : m.Runs j st τ a st') : ∃ fuel, j.carry (m.runner fuel) fuel st = some (a, st') := by
  induction h with
  | done a st => exact ⟨0, rfl⟩
  | step hstep _ ih =>
    obtain ⟨fuel, hfuel⟩ := ih
    exact ⟨fuel, (hstep.run_eq (m.runner fuel) fuel).trans hfuel⟩
  | write hf _ _ ih₁ ih₂ =>
    obtain ⟨fuel₁, h₁⟩ := ih₁
    obtain ⟨fuel₂, h₂⟩ := ih₂
    obtain ⟨st₁, hdrain, hst₁⟩ :=
      Option.map_eq_some_iff.mp (carry_mono (Nat.le_max_left fuel₁ fuel₂) h₁)
    obtain ⟨-, rfl⟩ := Prod.mk.inj hst₁
    refine ⟨max fuel₁ fuel₂, Option.bind_eq_some_iff.mpr
      ⟨_, ?_, carry_mono (Nat.le_max_right fuel₁ fuel₂) h₂⟩⟩
    rw [Runner.flush_of_not_flushing _ _ ((Graph.flushing_write ..).trans hf)]
    exact Option.map_eq_some_iff.mpr ⟨_, hdrain, rfl⟩
  | effect _ _ ih₁ ih₂ =>
    obtain ⟨fuel₁, h₁⟩ := ih₁
    obtain ⟨fuel₂, h₂⟩ := ih₂
    obtain ⟨st₁, heffect, hst₁⟩ :=
      Option.map_eq_some_iff.mp (carry_mono (Nat.le_max_left fuel₁ fuel₂) h₁)
    obtain ⟨-, rfl⟩ := Prod.mk.inj hst₁
    exact ⟨max fuel₁ fuel₂, Option.bind_eq_some_iff.mpr
      ⟨_, heffect, carry_mono (Nat.le_max_right fuel₁ fuel₂) h₂⟩⟩
  | call _ _ ih₁ ih₂ =>
    obtain ⟨fuel₁, h₁⟩ := ih₁
    obtain ⟨fuel₂, h₂⟩ := ih₂
    have hcall := (m.extends_runner (Nat.le_max_left (fuel₁ + 1) fuel₂)).call _ _ _ h₁
    exact ⟨max (fuel₁ + 1) fuel₂, Option.bind_eq_some_iff.mpr
      ⟨_, hcall, carry_mono (Nat.le_max_right (fuel₁ + 1) fuel₂) h₂⟩⟩
  | inactive ha =>
    refine ⟨0, ?_⟩
    rw [Job.carry, Runner.runEffect_of_inactive _ _ ha]
    rfl
  | bodiless ha hb =>
    refine ⟨0, ?_⟩
    rw [Job.carry, Runner.runEffect_of_none _ _ ha hb, Graph.endRun_beginRun ha hb]
    rfl
  | body ha hb _ ih =>
    obtain ⟨fuel, hfuel⟩ := ih
    refine ⟨fuel + 1, ?_⟩
    have hbody := congrArg (Option.map Prod.snd) hfuel
    rw [Job.carry, Runner.runEffect_of_some _ _ ha hb, runner_succ_body]
    exact congrArg (Option.map _ ∘ Option.map _) hbody
  | drained hd =>
    refine ⟨0, ?_⟩
    rw [Job.carry, Runner.drain_of_none _ _ hd]
    rfl
  | drain hd _ _ ih₁ ih₂ =>
    obtain ⟨fuel₁, h₁⟩ := ih₁
    obtain ⟨fuel₂, h₂⟩ := ih₂
    have hle : max fuel₁ fuel₂ ≤ max fuel₁ fuel₂ + 1 := Nat.le_succ _
    obtain ⟨st₁, heffect, hst₁⟩ := Option.map_eq_some_iff.mp
      (carry_mono (Nat.le_trans (Nat.le_max_left fuel₁ fuel₂) hle) h₁)
    obtain ⟨-, rfl⟩ := Prod.mk.inj hst₁
    obtain ⟨st₂, hdrain, hst₂⟩ := Option.map_eq_some_iff.mp
      (carry_mono (Nat.le_max_right fuel₁ fuel₂) h₂)
    obtain ⟨-, rfl⟩ := Prod.mk.inj hst₂
    refine ⟨max fuel₁ fuel₂ + 1, Option.map_eq_some_iff.mpr ⟨_, ?_, rfl⟩⟩
    rw [Runner.drain_succ_of_some _ _ hd, heffect]
    exact (m.extends_runner hle).drain (Nat.le_refl _) hdrain

/-- **The rules and the runner agree.** Code ends with some fuel exactly if the rules carry it to
that end. -/
theorem exists_fuel_iff {p : Script V R W Q A α} {st st' : State V R W} {a : α} :
    (∃ fuel, m.run fuel p st = some (a, st')) ↔ ∃ τ, m.Runs (.script p) st τ a st' := by
  constructor
  · rintro ⟨fuel, hrun⟩
    exact (m.traces_runner fuel).run hrun
  · rintro ⟨τ, hτ⟩
    exact hτ.exists_carry

end Meaning

/-! ## Bodies that run -/

/-- The effects whose bodies run after an occurrence, the innermost first. -/
def Occurrence.running (stack : List EffectId) : Occurrence V → List EffectId
  | .began e => e :: stack
  | .ended _ => stack.tail
  | _ => stack

namespace History

/-- The effects whose bodies run at the end of a history, the innermost first, where those of
`stack` run at its beginning. -/
def running (stack : List EffectId) (τ : History V R) : List EffectId :=
  τ.foldl (fun stack n ↦ n.what.running stack) stack

omit [Inhabited V] in
@[simp] theorem running_nil (stack : List EffectId) : running stack ([] : History V R) = stack :=
  rfl

omit [Inhabited V] in
@[simp] theorem running_cons (stack : List EffectId) (n : Point V R) (τ : History V R) :
    running stack (n :: τ) = running (n.what.running stack) τ := rfl

omit [Inhabited V] in
theorem running_append (stack : List EffectId) (τ τ' : History V R) :
    running stack (τ ++ τ') = running (running stack τ) τ' := List.foldl_append

/-- Whether all bodies that begin also end. -/
def Balanced (τ : History V R) : Prop := ∀ stack, running stack τ = stack

omit [Inhabited V] in
theorem Balanced.append {τ τ' : History V R} (h : τ.Balanced) (h' : τ'.Balanced) :
    Balanced (τ ++ τ') := by
  intro stack
  rw [running_append, h, h']

omit [Inhabited V] in
/-- The history of a body, with its beginning and its end. -/
theorem Balanced.bracket {τ : History V R} (h : τ.Balanced) (e : EffectId) (g g' : Graph V R) :
    Balanced (⟨.began e, g⟩ :: (τ ++ [⟨.ended e, g'⟩])) := by
  intro stack
  rw [running_cons, running_append, h]
  rfl

end History

theorem Script.Step.balanced {p p' : Script V R W Q A α} {st st' : State V R W} {τ : History V R}
    (h : p.Step st τ p' st') : τ.Balanced := by
  cases h <;> exact fun _ ↦ rfl

/-- Every run comes back to the body from which it is reached. -/
theorem Meaning.Runs.balanced {m : Meaning V R W Q A} {j : Job V R W Q A α} {st st' : State V R W}
    {τ : History V R} {a : α} (h : m.Runs j st τ a st') : τ.Balanced := by
  induction h with
  | done | inactive | bodiless | drained => exact fun _ ↦ rfl
  | step hstep _ ih => exact hstep.balanced.append ih
  | write _ _ _ ih₁ ih₂ | effect _ _ ih₁ ih₂ => exact ih₁.append ih₂
  | call _ _ ih₁ ih₂ | drain _ _ _ ih₁ ih₂ => exact ih₁.append ih₂
  | body _ _ _ ih => exact ih.bracket _ _ _

/-! ## What holds at every point -/

namespace History

/-- Whether something holds at every point of a history, where it may depend on what has happened
up to that point, and before the history. -/
def Throughout (I : History V R → Graph V R → Prop) : History V R → History V R → Prop
  | _, [] => True
  | past, n :: τ => I (past ++ [n]) n.graph ∧ Throughout I (past ++ [n]) τ

variable {I : History V R → Graph V R → Prop}

omit [Inhabited V] in
theorem Throughout.append {past τ τ' : History V R} (h : Throughout I past τ)
    (h' : Throughout I (past ++ τ) τ') : Throughout I past (τ ++ τ') := by
  induction τ generalizing past with
  | nil => rwa [List.append_nil] at h'
  | cons n τ ih =>
    rw [List.append_cons] at h'
    exact ⟨h.1, ih h.2 h'⟩

omit [Inhabited V] in
theorem Throughout.point {past before after : History V R} {n : Point V R}
    (h : Throughout I past (before ++ n :: after)) : I (past ++ before ++ [n]) n.graph := by
  induction before generalizing past with
  | nil =>
    rw [List.append_nil]
    exact h.1
  | cons n' before ih =>
    rw [List.append_cons past n' before]
    exact ih h.2

/-- What single steps keep. -/
structure Invariant (I : History V R → Graph V R → Prop) : Prop where
  looked : ∀ past g, I past g → I (past ++ [⟨.looked, g⟩]) g
  changed : ∀ past g, I past g → I (past ++ [⟨.changed, g⟩]) g
  newSignal : ∀ past g v, I past g →
    I (past ++ [⟨.made (g.newSignal v).1, (g.newSignal v).2⟩]) (g.newSignal v).2
  read : ∀ past g s, s.index < g.signals.size → I past g →
    I (past ++ [⟨.read s (g.value s), g.track s⟩]) (g.track s)
  write : ∀ past g s v, I past g → I (past ++ [⟨.wrote s v, g.write s v⟩]) (g.write s v)
  flush : ∀ past g, g.flushing = false → I past g → I past { g with flushing := true }
  dequeue : ∀ past g e g', g.dequeue? = some (e, g') → I past g → I past g'
  settled : ∀ past g, g.queue = [] → I past g →
    I (past ++ [⟨.settled, { g with flushing := false }⟩]) { g with flushing := false }
  newEffect : ∀ past g b, I past g →
    I (past ++ [⟨.created (g.newEffect b).1, (g.newEffect b).2⟩]) (g.newEffect b).2
  registered : ∀ past g e, I past g → I (past ++ [⟨.registered e, g⟩]) g
  stop : ∀ past g e, e.index < g.effects.size → I past g →
    I (past ++ [⟨.stopped e, g.stop e⟩]) (g.stop e)
  began : ∀ past g e b, g.isActive e = true → (g.effect e).body = some b → I past g →
    I (past ++ [⟨.began e, g.beginRun e⟩]) (g.beginRun e)
  /-- A body ends; `g` is the graph before it began, and `τ` is what has happened since. -/
  ended : ∀ past g e b (τ : History V R) g', g.isActive e = true → (g.effect e).body = some b →
    τ.Balanced → I past g → I (past ++ ⟨.began e, g.beginRun e⟩ :: τ) g' →
      I (past ++ ⟨.began e, g.beginRun e⟩ :: (τ ++
        [⟨.ended e, g'.endRun e g.current (some b)⟩])) (g'.endRun e g.current (some b))

end History

theorem Meaning.Runs.queue_of_drain {m : Meaning V R W Q A} {j : Job V R W Q A α}
    {st st' : State V R W} {τ : History V R} {a x : α} (h : m.Runs j st τ a st')
    (hj : j = .drain x) : st'.graph.queue = [] := by
  induction h with
  | drained hd => exact Graph.dequeue?_eq_none_iff.mp hd
  | drain _ _ _ _ ih =>
    cases hj
    exact ih rfl
  | _ => cases hj

open History

variable {I : History V R → Graph V R → Prop} {m : Meaning V R W Q A} {st st' : State V R W}
  {τ past : History V R}

theorem Script.Step.throughout (hI : Invariant I) {p p' : Script V R W Q A α}
    (h : p.Step st τ p' st') (hst : I past st.graph) :
    Throughout I past τ ∧ I (past ++ τ) st'.graph := by
  suffices hpoint : τ = [] ∧ st'.graph = st.graph ∨
      ∃ n, τ = [n] ∧ n.graph = st'.graph ∧ I (past ++ [n]) n.graph by
    rcases hpoint with ⟨rfl, hg⟩ | ⟨n, rfl, hg, hn⟩
    · rw [List.append_nil, hg]
      exact ⟨trivial, hst⟩
    · exact ⟨⟨hn, trivial⟩, hg ▸ hn⟩
  cases h with
  | look => exact .inr ⟨_, rfl, rfl, hI.looked _ _ hst⟩
  | change => exact .inr ⟨_, rfl, rfl, hI.changed _ _ hst⟩
  | newSignal v => exact .inr ⟨_, rfl, rfl, hI.newSignal _ _ v hst⟩
  | read s _ _ hs => exact .inr ⟨_, rfl, rfl, hI.read _ _ s hs hst⟩
  | write s v => exact .inr ⟨_, rfl, rfl, hI.write _ _ s v hst⟩
  | stop e _ _ he => exact .inr ⟨_, rfl, rfl, hI.stop _ _ e he hst⟩
  | readNothing | stopNothing => exact .inl ⟨rfl, rfl⟩

/-- **What single steps keep, holds at every point of every run.** -/
theorem Meaning.Runs.throughout (hI : Invariant I) {j : Job V R W Q A α} {a : α}
    (h : m.Runs j st τ a st') (hst : I past st.graph) :
    Throughout I past τ ∧ I (past ++ τ) st'.graph := by
  induction h generalizing past with
  | done | inactive | bodiless | drained =>
    rw [List.append_nil]
    exact ⟨trivial, hst⟩
  | step hstep _ ih =>
    obtain ⟨hfirst, hst₁⟩ := hstep.throughout hI hst
    obtain ⟨hrest, hlast⟩ := ih hst₁
    rw [← List.append_assoc]
    exact ⟨hfirst.append hrest, hlast⟩
  | @write _ s v _ _ _ _ _ _ _ hf hdrain _ ih₁ ih₂ =>
    have hwrote := hI.write _ _ s v hst
    obtain ⟨hflush, hdrained⟩ := ih₁ (hI.flush _ _ ((Graph.flushing_write ..).trans hf) hwrote)
    have hsettled := hI.settled _ _ (hdrain.queue_of_drain rfl) hdrained
    obtain ⟨hrest, hlast⟩ := ih₂ hsettled
    refine ⟨⟨hwrote, hflush.append ⟨hsettled, hrest⟩⟩, ?_⟩
    simpa only [List.append_assoc, List.cons_append, List.nil_append] using hlast
  | @effect _ b _ st _ _ _ _ _ _ _ ih₁ ih₂ =>
    have hcreated := hI.newEffect _ _ b hst
    obtain ⟨hfirst, hran⟩ := ih₁ hcreated
    have hregistered := hI.registered _ _ (st.graph.newEffect b).1 hran
    obtain ⟨hrest, hlast⟩ := ih₂ hregistered
    refine ⟨⟨hcreated, hfirst.append ⟨hregistered, hrest⟩⟩, ?_⟩
    simpa only [List.append_assoc, List.cons_append, List.nil_append] using hlast
  | call _ _ ih₁ ih₂ =>
    obtain ⟨hanswer, hst₁⟩ := ih₁ hst
    obtain ⟨hrest, hlast⟩ := ih₂ hst₁
    rw [← List.append_assoc]
    exact ⟨hanswer.append hrest, hlast⟩
  | body ha hb hinner ih =>
    have hbegan := hI.began _ _ _ _ ha hb hst
    obtain ⟨hpoints, hran⟩ := ih hbegan
    rw [← List.append_cons] at hran
    have hended := hI.ended _ _ _ _ _ _ ha hb hinner.balanced hst hran
    refine ⟨⟨hbegan, hpoints.append ⟨?_, trivial⟩⟩, hended⟩
    simpa only [List.append_assoc, List.cons_append, List.nil_append] using hended
  | drain hd _ _ ih₁ ih₂ =>
    obtain ⟨hfirst, hst₁⟩ := ih₁ (hI.dequeue _ _ _ _ hd hst)
    obtain ⟨hrest, hlast⟩ := ih₂ hst₁
    rw [← List.append_assoc]
    exact ⟨hfirst.append hrest, hlast⟩

/-- And at every point that code comes to, also if it never ends. -/
theorem Meaning.Reaches.throughout (hI : Invariant I) {j : Job V R W Q A α}
    (h : m.Reaches j st τ) (hst : I past st.graph) : Throughout I past τ := by
  induction h generalizing past with
  | start => exact trivial
  | all hruns => exact (hruns.throughout hI hst).1
  | step hstep _ ih =>
    obtain ⟨hfirst, hst₁⟩ := hstep.throughout hI hst
    exact hfirst.append (ih hst₁)
  | @flush _ s v _ _ _ hf _ ih =>
    have hwrote := hI.write _ _ s v hst
    exact ⟨hwrote, ih (hI.flush _ _ ((Graph.flushing_write ..).trans hf) hwrote)⟩
  | @write _ s v _ _ _ _ _ hf hdrain _ ih =>
    have hwrote := hI.write _ _ s v hst
    obtain ⟨hflush, hdrained⟩ :=
      hdrain.throughout hI (hI.flush _ _ ((Graph.flushing_write ..).trans hf) hwrote)
    have hsettled := hI.settled _ _ (hdrain.queue_of_drain rfl) hdrained
    exact ⟨hwrote, hflush.append ⟨hsettled, ih hsettled⟩⟩
  | @first _ b _ _ _ _ ih =>
    have hcreated := hI.newEffect _ _ b hst
    exact ⟨hcreated, ih hcreated⟩
  | @effect _ b _ st _ _ _ hfirst _ ih =>
    have hcreated := hI.newEffect _ _ b hst
    obtain ⟨hpoints, hran⟩ := hfirst.throughout hI hcreated
    have hregistered := hI.registered _ _ (st.graph.newEffect b).1 hran
    exact ⟨hcreated, hpoints.append ⟨hregistered, ih hregistered⟩⟩
  | answer _ ih => exact ih hst
  | call hanswer _ ih =>
    obtain ⟨hpoints, hst₁⟩ := hanswer.throughout hI hst
    exact hpoints.append (ih hst₁)
  | body ha hb _ ih =>
    have hbegan := hI.began _ _ _ _ ha hb hst
    exact ⟨hbegan, ih hbegan⟩
  | next hd _ ih => exact ih (hI.dequeue _ _ _ _ hd hst)
  | drain hd hfirst _ ih =>
    obtain ⟨hpoints, hst₁⟩ := hfirst.throughout hI (hI.dequeue _ _ _ _ hd hst)
    exact hpoints.append (ih hst₁)

end LiveMarkup
