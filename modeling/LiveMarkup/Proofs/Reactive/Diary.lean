import LiveMarkup.Proofs.Reactive.Beside

/-!
# Diaries

What an effect has read in its latest run is nowhere in the graph: a graph lists who subscribes to
a signal, and neither the values that were seen nor the run in which they were seen. So statements
about reads speak of scripts that keep a diary. `Script.observed` puts a note behind every read, and
`Meaning.observed` puts one before and one behind every body; each note says what happened and how
the graph stood. The diary lies in the world, beside the world of the script, so that observed
scripts are run by the same runner as all others.

Nothing depends on the diary: `Meaning.run_observed` says that a run with a diary is the run without
one, with the diary beside it.
-/

namespace LiveMarkup

/-- What a diary notes. -/
inductive Happening (V : Type) where
  /-- The body of the current effect begins. -/
  | began
  /-- A signal was read and had this value. -/
  | read (s : SignalId) (value : V)
  /-- The body of the current effect ends. -/
  | ended

/-- A note: what happened, and the graph at that moment. -/
structure Note (V R : Type) where
  graph : Graph V R
  what : Happening V

/-- Notes in the order in which they were made. -/
abbrev Diary (V R : Type) := List (Note V R)

namespace Note

variable {V R : Type}

/-- What an effect has read in its latest run so far, given what it had before the note. -/
def readsAfter (e : EffectId) (before : List (SignalId × V)) (n : Note V R) :
    List (SignalId × V) :=
  if n.graph.current = some e then
    match n.what with
    | .began => []
    | .read s v => before ++ [(s, v)]
    | .ended => before
  else before

end Note

namespace Diary

variable {V R : Type}

/-- What an effect has read in its latest run: the signals and the values they had. Reads count for
the effect whose body is innermost. -/
def latestReads (d : Diary V R) (e : EffectId) : List (SignalId × V) :=
  d.foldl (Note.readsAfter e) []

@[simp] theorem latestReads_nil (e : EffectId) : latestReads ([] : Diary V R) e = [] := rfl

@[simp] theorem latestReads_append_singleton (d : Diary V R) (n : Note V R) (e : EffectId) :
    latestReads (d ++ [n]) e = n.readsAfter e (d.latestReads e) := by
  rw [latestReads, latestReads, List.foldl_append, List.foldl_cons, List.foldl_nil]

end Diary

/-! ## Keeping a diary -/

namespace Script

variable {V R W Q : Type} {A : Q → Type} {α β : Type}

/-- Notes something, and goes on. -/
def note (what : Happening V) (p : Script V R (W × Diary V R) Q A α) :
    Script V R (W × Diary V R) Q A α :=
  .look fun g _ ↦ .change (fun w ↦ (w.1, w.2 ++ [⟨g, what⟩])) p

/-- Notes that a signal was read, and goes on. An identity that no signal has yet is nothing that
can be read. -/
def noteRead (s : SignalId) (v : V) (p : Script V R (W × Diary V R) Q A α) :
    Script V R (W × Diary V R) Q A α :=
  .look fun g _ ↦ if s.index < g.signals.size then p.note (.read s v) else p

/-- The script, which notes what it reads. -/
def observed : Script V R W Q A α → Script V R (W × Diary V R) Q A α
  | .done a => .done a
  | .look k => .look fun g w ↦ (k g w.1).observed
  | .change f k => .change (fun w ↦ (f w.1, w.2)) k.observed
  | .newSignal v k => .newSignal v fun s ↦ (k s).observed
  | .read s k => .read s fun v ↦ (k v).observed.noteRead s v
  | .write s v k => .write s v k.observed
  | .effect b k => .effect b fun e ↦ (k e).observed
  | .stop e k => .stop e k.observed
  | .call q k => .call q fun a ↦ (k a).observed

end Script

namespace Meaning

variable {V R W Q : Type} {A : Q → Type}

/-- The meaning under which bodies and calls note what they read, and bodies when they run. -/
def observed (m : Meaning V R W Q A) : Meaning V R (W × Diary V R) Q A where
  body b := ((m.body b).observed.bind fun _ ↦ (Script.done ()).note .ended).note .began
  call q := (m.call q).observed

end Meaning

namespace State

variable {V R W : Type}

/-- The state without its diary. -/
def erase (st : State V R (W × Diary V R)) : State V R W := ⟨st.graph, st.world.1⟩

/-- The diary of a state. -/
def diary (st : State V R (W × Diary V R)) : Diary V R := st.world.2

/-- The state with one more note. -/
def note (st : State V R (W × Diary V R)) (what : Happening V) : State V R (W × Diary V R) :=
  { st with world := (st.world.1, st.world.2 ++ [⟨st.graph, what⟩]) }

/-- The state after a read, which is noted if the signal exists. -/
def noteRead (st : State V R (W × Diary V R)) (s : SignalId) (v : V) :
    State V R (W × Diary V R) :=
  if s.index < st.graph.signals.size then st.note (.read s v) else st

@[simp] theorem graph_erase (st : State V R (W × Diary V R)) : st.erase.graph = st.graph := rfl

@[simp] theorem erase_withGraph (st : State V R (W × Diary V R)) (g : Graph V R) :
    (st.withGraph g).erase = st.erase.withGraph g := rfl

@[simp] theorem graph_note (st : State V R (W × Diary V R)) (what : Happening V) :
    (st.note what).graph = st.graph := rfl

@[simp] theorem erase_note (st : State V R (W × Diary V R)) (what : Happening V) :
    (st.note what).erase = st.erase := rfl

@[simp] theorem diary_withGraph (st : State V R (W × Diary V R)) (g : Graph V R) :
    (st.withGraph g).diary = st.diary := rfl

@[simp] theorem diary_note (st : State V R (W × Diary V R)) (what : Happening V) :
    (st.note what).diary = st.diary ++ [⟨st.graph, what⟩] := rfl

@[simp] theorem graph_noteRead (st : State V R (W × Diary V R)) (s : SignalId) (v : V) :
    (st.noteRead s v).graph = st.graph := by
  unfold noteRead
  split <;> rfl

@[simp] theorem erase_noteRead (st : State V R (W × Diary V R)) (s : SignalId) (v : V) :
    (st.noteRead s v).erase = st.erase := by
  unfold noteRead
  split <;> rfl

end State

/-! ## A run with a diary is the run without one -/

namespace Runner

variable {V R W Q : Type} {A : Q → Type} {α : Type}

/-- Whether a runner for observed scripts does what another does, apart from the diary. -/
structure Observes (r' : Runner V R (W × Diary V R) Q A) (r : Runner V R W Q A) : Prop where
  body : ∀ b st, (r'.body b st).map State.erase = r.body b st.erase
  call : ∀ q st, (r'.call q st).map (Prod.map id State.erase) = r.call q st.erase

namespace Observes

variable {r' : Runner V R (W × Diary V R) Q A} {r : Runner V R W Q A}

/-- A diary is something that lies beside the world. -/
theorem mirrors (h : Observes r' r) : Mirrors r' r := ⟨h.body, h.call⟩

theorem runEffect (h : Observes r' r) (e : EffectId) (st : State V R (W × Diary V R)) :
    (r'.runEffect e st).map State.erase = r.runEffect e st.erase := h.mirrors.runEffect e st

theorem flush (h : Observes r' r) (limit : Nat) (st : State V R (W × Diary V R)) :
    (r'.flush limit st).map State.erase = r.flush limit st.erase := h.mirrors.flush limit st

end Observes

variable [Inhabited V]

theorem run_note (r : Runner V R (W × Diary V R) Q A) (limit : Nat) (what : Happening V)
    (p : Script V R (W × Diary V R) Q A α) (st : State V R (W × Diary V R)) :
    r.run limit (p.note what) st = r.run limit p (st.note what) := rfl

theorem run_noteRead (r : Runner V R (W × Diary V R) Q A) (limit : Nat) (s : SignalId) (v : V)
    (p : Script V R (W × Diary V R) Q A α) (st : State V R (W × Diary V R)) :
    r.run limit (p.noteRead s v) st = r.run limit p (st.noteRead s v) := by
  simp only [Script.noteRead, State.noteRead, run]
  split <;> rfl

theorem Observes.run {r' : Runner V R (W × Diary V R) Q A} {r : Runner V R W Q A}
    (h : Observes r' r) (limit : Nat) (p : Script V R W Q A α)
    (st : State V R (W × Diary V R)) :
    (r'.run limit p.observed st).map (Prod.map id State.erase) = r.run limit p st.erase := by
  induction p generalizing st with
  | done a => rfl
  | look k ih => exact ih _ _ _
  | change f k ih => exact ih _
  | newSignal v k ih => exact ih _ _
  | read s k ih =>
    simp only [Script.observed, Runner.run, run_noteRead, ih, State.erase_noteRead]
    rfl
  | write s v k ih =>
    simp only [Script.observed, Runner.run, State.graph_erase]
    rw [← State.erase_withGraph, ← h.flush, Option.map_bind, Option.bind_map]
    exact congrArg _ (funext ih)
  | effect b k ih =>
    simp only [Script.observed, Runner.run, State.graph_erase]
    rw [← State.erase_withGraph, ← h.runEffect, Option.map_bind, Option.bind_map]
    exact congrArg _ (funext (ih _))
  | stop e k ih => exact ih _
  | call q k ih =>
    simp only [Script.observed, Runner.run]
    rw [← h.call, Option.map_bind, Option.bind_map]
    exact congrArg _ (funext fun x ↦ ih _ _)

end Runner

namespace Meaning

variable {V R W Q : Type} {A : Q → Type} {α : Type} [Inhabited V] (m : Meaning V R W Q A)

/-- The body of an observed effect runs between the two notes about it. -/
theorem observed_runner_succ_body (fuel : Nat) (b : R) (st : State V R (W × Diary V R)) :
    (m.observed.runner (fuel + 1)).body b st =
      ((m.observed.runner fuel).run fuel (m.body b).observed (st.note .began)).map
        fun x ↦ x.2.note .ended := by
  rw [runner_succ_body]
  change ((m.observed.runner fuel).run fuel (((m.body b).observed.bind _).note .began) st).map _ = _
  rw [Runner.run_note, Runner.run_bind, Option.map_bind]
  exact Option.map_eq_bind.symm

theorem observed_runner_succ_call (fuel : Nat) (q : Q) (st : State V R (W × Diary V R)) :
    (m.observed.runner (fuel + 1)).call q st =
      (m.observed.runner fuel).run fuel (m.call q).observed st := rfl

theorem observes_runner (fuel : Nat) : (m.observed.runner fuel).Observes (m.runner fuel) := by
  induction fuel with
  | zero => exact ⟨fun _ _ ↦ rfl, fun _ _ ↦ rfl⟩
  | succ fuel ih =>
    constructor
    · intro b st
      rw [observed_runner_succ_body, runner_succ_body, ← State.erase_note st .began, ← ih.run,
        Option.map_map, Option.map_map]
      rfl
    · intro q st
      rw [observed_runner_succ_call, runner_succ_call, ih.run]

/-- **The diary changes nothing.** A run with a diary answers, and leaves behind, what the run
without one does. -/
theorem run_observed (fuel : Nat) (p : Script V R W Q A α) (st : State V R (W × Diary V R)) :
    (m.observed.run fuel p.observed st).map (Prod.map id State.erase) = m.run fuel p st.erase :=
  (m.observes_runner fuel).run fuel p st

end Meaning

end LiveMarkup
