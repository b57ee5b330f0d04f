import LiveMarkup.Proofs.Reactive.Freshness

/-!
# What registering an effect leaves stale

A new effect runs at once, with its body taken out of it. Outside of any flush, a write in that run
begins a flush before it returns, and if the new effect had read the signal, the flush meets it
without its body: the run is lost, and nothing makes up for it. So, other than after a write
(`Meaning.upToDate_of_write`), an effect may be stale when the registration has returned
(`not_upToDate_of_effect`).

That is all that can go wrong. An effect that existed before is up to date afterwards, and so is a
new one, unless it was stale when its own run ended outside of any flush (`Diary.Overtaken`). If the
body writes nothing, all are.

The invariant is `State.Poised`: outside of a flush, an effect that has its body is up to date or
was overtaken. A flush then promises nothing of those that have no body or were overtaken before it
began, but the first are back in their runs when it ends, and the second stay overtaken.
-/

namespace LiveMarkup

variable {V R W Q : Type} {A : Q → Type} {α : Type}

/-! ## The diary grows -/

namespace State

variable {st st' st'' : State V R (W × Diary V R)}

/-- Whether a diary was only added to. -/
def Extends (st st' : State V R (W × Diary V R)) : Prop := st.diary <+: st'.diary

theorem Extends.refl (st : State V R (W × Diary V R)) : st.Extends st := List.prefix_refl _

theorem Extends.trans (h : st.Extends st') (h' : st'.Extends st'') : st.Extends st'' :=
  List.IsPrefix.trans h h'

theorem Extends.note (st : State V R (W × Diary V R)) (what : Happening V) :
    st.Extends (st.note what) := List.prefix_append _ _

theorem Extends.noteRead (st : State V R (W × Diary V R)) (s : SignalId) (v : V) :
    st.Extends (st.noteRead s v) := by
  unfold State.noteRead
  split
  · exact .note st _
  · exact .refl st

theorem Extends.begin (st : State V R (W × Diary V R)) (e : EffectId) : st.Extends (st.begin e) :=
  .note (st.withGraph (st.graph.beginRun e)) .began

theorem Extends.begin_newEffect (st : State V R (W × Diary V R)) (b : R) :
    st.Extends ((st.withGraph (st.graph.newEffect b).2).begin (st.graph.newEffect b).1) :=
  .begin (st.withGraph (st.graph.newEffect b).2) _

theorem Extends.read (st : State V R (W × Diary V R)) (s : SignalId) (v : V) :
    st.Extends ((st.withGraph (st.graph.track s)).noteRead s v) :=
  .noteRead (st.withGraph (st.graph.track s)) s v

variable [Inhabited V]

theorem extends_moves : Moves fun st st' : State V R (W × Diary V R) ↦ st.Extends st' where
  refl := .refl
  trans _ _ _ := .trans
  write st _ _ := .refl st
  dequeue st _ _ _ := .refl st
  idle st _ _ _ := .refl st
  rerun st e _ st' _ _ h := ((Extends.begin st e).trans h).trans (.note st' .ended)
  flush _ _ _ h := h

end State

/-! ## Runs that were overtaken -/

variable [Inhabited V]

/-- Whether a run of an effect ended outside of any flush when a signal that it had read had another
value already. -/
def Diary.Overtaken (d : Diary V R) (e : EffectId) : Prop :=
  ∃ before g, before ++ [⟨g, .ended⟩] <+: d ∧ g.current = some e ∧ g.flushing = false ∧
    ∃ x ∈ Diary.latestReads before e, g.value x.1 ≠ x.2

namespace State

variable {st st' : State V R (W × Diary V R)} {N : Nat}

theorem Extends.overtaken (h : st.Extends st') {e : EffectId} (he : st.diary.Overtaken e) :
    st'.diary.Overtaken e := by
  obtain ⟨before, g, hd, hrest⟩ := he
  exact ⟨before, g, hd.trans h, hrest⟩

/-- Whether all that an effect has read in its latest run is still current. -/
def IsCurrent (st : State V R (W × Diary V R)) (e : EffectId) : Prop :=
  ∀ x ∈ st.diary.latestReads e, st.graph.value x.1 = x.2

/-- What holds outside of a flush: nothing waits, and whoever has its body is current, apart from
effects from the `N`-th on that were overtaken. -/
structure Poised (N : Nat) (st : State V R (W × Diary V R)) : Prop where
  flushing : st.graph.flushing = false
  queue : st.graph.queue = []
  grounded : st.Grounded
  size : N ≤ st.graph.effects.size
  current : ∀ e, st.graph.isActive e = true → (st.graph.effect e).body.isSome = true →
    st.IsCurrent e ∨ N ≤ e.index ∧ st.diary.Overtaken e

namespace Poised

/-- A step that begins no run and changes no value that was read. -/
theorem of_step (h : st.Poised N) (hflushing : st'.graph.flushing = st.graph.flushing)
    (hqueue : st'.graph.queue = st.graph.queue) (hgrounded : st'.Grounded)
    (hsize : st.graph.effects.size ≤ st'.graph.effects.size) (hextends : st.Extends st')
    (hcurrent : ∀ e, st'.graph.isActive e = true → (st'.graph.effect e).body.isSome = true →
      st.graph.isActive e = true ∧ (st.graph.effect e).body.isSome = true ∧
        (st.IsCurrent e → st'.IsCurrent e)) : st'.Poised N where
  flushing := hflushing.trans h.flushing
  queue := hqueue.trans h.queue
  grounded := hgrounded
  size := Nat.le_trans h.size hsize
  current e ha hb := by
    obtain ⟨ha₀, hb₀, hvalue⟩ := hcurrent e ha hb
    exact (h.current e ha₀ hb₀).imp hvalue (And.imp_right hextends.overtaken)

theorem newSignal (h : st.Poised N) (v : V) :
    (st.withGraph (st.graph.newSignal v).2).Poised N := by
  refine h.of_step rfl rfl (h.grounded.newSignal v) (Nat.le_refl _) (.refl st)
    fun e ha hb ↦ ⟨ha, hb, fun hcurrent x hx ↦ ?_⟩
  rw [graph_withGraph, Graph.value,
    Graph.signal_newSignal_of_lt (h.grounded.subscribed e ha x hx).1]
  exact hcurrent x hx

theorem read (h : st.Poised N) (s : SignalId) :
    ((st.withGraph (st.graph.track s)).noteRead s (st.graph.value s)).Poised N := by
  refine h.of_step ?_ ?_ (h.grounded.read s _) ?_ (.read st s _)
    fun e ha hb ↦ ?_
  · rw [graph_noteRead, graph_withGraph, Graph.flushing_track]
  · rw [graph_noteRead, graph_withGraph, Graph.queue_track]
  · rw [graph_noteRead, graph_withGraph, Graph.effects_track]
  · rw [graph_noteRead, graph_withGraph, Graph.isActive, Graph.effect_track] at ha
    rw [graph_noteRead, graph_withGraph, Graph.effect_track] at hb
    refine ⟨ha, hb, fun hcurrent x hx ↦ ?_⟩
    rw [graph_noteRead, graph_withGraph, Graph.value_track]
    rcases mem_latestReads_noteRead hx with hx | ⟨rfl, -, -⟩
    · exact hcurrent x hx
    · rfl

theorem stop (h : st.Poised N) (e : EffectId) : (st.withGraph (st.graph.stop e)).Poised N := by
  have hcontinues := Graph.Continues.stop st.graph e
  refine h.of_step rfl rfl (h.grounded.stop e) hcontinues.size (.refl st) fun e' ha hb ↦ ?_
  have hlt : e'.index < st.graph.effects.size :=
    Graph.size_stop st.graph e ▸ Graph.lt_of_isActive ha
  obtain ⟨ha₀, hbody⟩ := hcontinues.old e' hlt ha
  rw [graph_withGraph, hbody] at hb
  exact ⟨ha₀, hb, id⟩

/-- Of an effect that begins to run nothing is promised. -/
theorem begin_newEffect (h : st.Poised N) (b : R) :
    ((st.withGraph (st.graph.newEffect b).2).begin (st.graph.newEffect b).1).Poised N := by
  refine h.of_step rfl rfl (h.grounded.begin_newEffect b) ?_ (.begin_newEffect st b)
    fun e ha hb ↦ ?_
  · rw [State.begin, graph_note, graph_withGraph, graph_withGraph, Graph.size_beginRun,
      Graph.size_newEffect]
    exact Nat.le_succ _
  · rw [State.begin, graph_note, graph_withGraph, graph_withGraph, Graph.effect_beginRun] at hb
    split at hb
    · contradiction
    · rename_i hne
      rw [Graph.effect_newEffect, if_neg hne] at hb
      rw [State.begin, graph_note, graph_withGraph, graph_withGraph, Graph.isActive_beginRun,
        Graph.isActive, Graph.effect_newEffect, if_neg hne] at ha
      exact ⟨ha, hb, fun hcurrent x hx ↦ hcurrent x (reads_of_begin hx).2⟩

/-- When the run has ended its effect is current, or it has just been overtaken. -/
theorem finish {b : R} (h : st'.Poised N) (hN : N ≤ st.graph.effects.size)
    (hcontinues : ((st.withGraph (st.graph.newEffect b).2).begin
      (st.graph.newEffect b).1).graph.Continues st'.graph) (outer : Option EffectId) :
    (st'.finish (st.graph.newEffect b).1 outer b).Poised N := by
  obtain ⟨e, he⟩ : ∃ e, e = (st.graph.newEffect b).1 := ⟨_, rfl⟩
  rw [← he] at hcontinues ⊢
  have hgraph : (st'.finish e outer b).graph = st'.graph.endRun e outer (some b) := rfl
  have hcurrent (e' : EffectId) (hst' : st'.IsCurrent e') :
      (st'.finish e outer b).IsCurrent e' := by
    intro x hx
    rw [latestReads_finish] at hx
    rw [hgraph, Graph.value, Graph.signal, Graph.signals_endRun]
    exact hst' x hx
  have hended : st'.Extends (st'.finish e outer b) := .note st' .ended
  refine ⟨?_, ?_, h.grounded.finish e outer b, ?_, fun e' ha hb ↦ ?_⟩
  · exact (Graph.flushing_endRun ..).trans h.flushing
  · exact (Graph.queue_endRun ..).trans h.queue
  · rw [hgraph, Graph.size_endRun]
    exact h.size
  · rw [hgraph, Graph.isActive_endRun] at ha
    rw [hgraph, Graph.effect_endRun] at hb
    split at hb
    · rename_i hrun
      obtain rfl := hrun.1
      by_cases hst' : st'.IsCurrent e'
      · exact .inl (hcurrent e' hst')
      · -- This is the only place where an effect can be overtaken.
        refine .inr ⟨he ▸ hN, st'.diary, st'.graph, List.prefix_refl _, ?_, h.flushing, ?_⟩
        · exact hcontinues.current
        · simpa only [IsCurrent, not_forall, exists_prop] using hst'
    · exact (h.current e' ha hb).imp (hcurrent e') (And.imp_right hended.overtaken)

/-- A flush promises nothing of the effects that have no body or were overtaken when it begins. -/
theorem write_flush (h : st.Poised N) {r : Runner V R (W × Diary V R) Q A}
    (hcontinues : r.BodiesKeep fun st st' ↦ st.graph.Continues st'.graph)
    (hsettling : ∀ X, r.BodiesKeep fun st st' ↦ st.Settling X → st'.Settling X)
    (hextends : r.BodiesKeep fun st st' ↦ st.Extends st') {limit : Nat} {s : SignalId} {v : V}
    (hrun : r.flush limit (st.withGraph (st.graph.write s v)) = some st') : st'.Poised N := by
  -- Of these nothing is promised when the flush ends: they run already, or were stale before.
  let X (e : EffectId) : Prop := e.index < st.graph.effects.size ∧
    ((st.graph.effect e).body = none ∨ N ≤ e.index ∧ st.diary.Overtaken e)
  have hlacks : st.graph.Lacks X :=
    ⟨fun e he ↦ he.1, fun e ha hnone ↦ ⟨Graph.lt_of_isActive ha, .inl hnone⟩⟩
  have hfresh : st.Fresh X := by
    intro e ha hX x hx
    have hlt := Graph.lt_of_isActive ha
    have hbody : (st.graph.effect e).body.isSome = true :=
      Option.isSome_iff_ne_none.mpr fun hnone ↦ hX ⟨hlt, .inl hnone⟩
    refine .inl (((h.current e ha hbody).resolve_right fun hc ↦ ?_) x hx)
    exact hX ⟨hlt, .inr hc⟩
  obtain ⟨hqueue, hgrounded, hfresh'⟩ :=
    Runner.settling_of_flush hcontinues (hsettling X) h.grounded h.flushing hlacks hfresh hrun
  have hcont : st.graph.Continues st'.graph := continues_moves.write_flush hcontinues hrun
  refine ⟨hcont.flushing.trans h.flushing, hqueue, hgrounded, h.size.trans hcont.size,
    fun e ha hb ↦ ?_⟩
  by_cases hX : X e
  · obtain ⟨hlt, hnone | ⟨hN, hovertaken⟩⟩ := hX
    · rw [(hcont.old e hlt ha).2, hnone] at hb
      contradiction
    · have hlater : st.Extends st' := extends_moves.write_flush hextends hrun
      exact .inr ⟨hN, hlater.overtaken hovertaken⟩
  · exact .inl fun x hx ↦ hfresh'.value_eq hqueue ha hX hx

end Poised

/-- What every run keeps, inside of flushes and outside. -/
structure Proceeds (st st' : State V R (W × Diary V R)) : Prop where
  continues : st.graph.Continues st'.graph
  grows : st.Extends st'
  settling : ∀ X, st.Settling X → st'.Settling X
  poised : ∀ N, st.Poised N → st'.Poised N

theorem proceeds_steady :
    Steady Q A fun st st' : State V R (W × Diary V R) ↦ st.Proceeds st' where
  refl st := ⟨.refl _, .refl st, fun _ ↦ id, fun _ ↦ id⟩
  trans _ _ _ h h' := ⟨h.continues.trans h'.continues, h.grows.trans h'.grows,
    fun X ↦ h'.settling X ∘ h.settling X, fun N ↦ h'.poised N ∘ h.poised N⟩
  change st f := by
    refine ⟨.refl _, .refl st, fun X ↦ (settling_steady (Q := Q) (A := A) X).change st f,
      fun N h ↦ ?_⟩
    exact ⟨h.flushing, h.queue, ⟨h.grounded.flagged, h.grounded.subscribed⟩, h.size, h.current⟩
  newSignal st v := ⟨(continues_steady (Q := Q) (A := A)).newSignal st v, .refl st,
    fun X ↦ (settling_steady (Q := Q) (A := A) X).newSignal st v, fun _ h ↦ h.newSignal v⟩
  read st s := ⟨(continues_steady (Q := Q) (A := A)).read st s, .read st s _,
    fun X ↦ (settling_steady (Q := Q) (A := A) X).read st s, fun _ h ↦ h.read s⟩
  stop st e := ⟨.stop st.graph e, .refl st,
    fun X ↦ (settling_steady (Q := Q) (A := A) X).stop st e, fun _ h ↦ h.stop e⟩
  effect st b st' h := by
    refine ⟨?_, ?_, fun X ↦ ?_, fun N hst ↦ ?_⟩
    · exact (continues_steady (Q := Q) (A := A)).effect st b st' h.continues
    · exact ((Extends.begin_newEffect st b).trans h.grows).trans (.note st' .ended)
    · exact (settling_steady (Q := Q) (A := A) X).effect st b st' (h.settling X)
    · exact (h.poised N (hst.begin_newEffect b)).finish hst.size h.continues _
  write r hr limit s v st st' hrun := by
    have hcontinues := hr.mono fun _ _ h ↦ h.continues
    have hgrows := hr.mono fun _ _ h ↦ h.grows
    have hsettling (X : EffectId → Prop) := hr.mono fun _ _ h ↦ h.settling X
    refine ⟨?_, ?_, fun X ↦ ?_, fun N h ↦ ?_⟩
    · exact continues_moves.write_flush hcontinues hrun
    · exact extends_moves.write_flush hgrows hrun
    · exact (settling_steady X).write r (hsettling X) limit s v st st' hrun
    · exact h.write_flush hcontinues hsettling hgrows hrun

end State

/-! ## Bodies that write nothing -/

/-- Whether a script neither writes a signal nor runs anything that could. -/
def Script.Quiet : Script V R W Q A α → Prop
  | .done _ => True
  | .look k => ∀ g w, (k g w).Quiet
  | .change _ k | .stop _ k => k.Quiet
  | .newSignal _ k => ∀ s, (k s).Quiet
  | .read _ k => ∀ v, (k v).Quiet
  | .write .. | .effect .. | .call .. => False

namespace State

/-- What holds where nothing was written since all effects were up to date. -/
structure Calm (st : State V R (W × Diary V R)) : Prop where
  grounded : st.Grounded
  queue : st.graph.queue = []
  fresh : st.Fresh fun _ ↦ False

variable {st st' : State V R (W × Diary V R)}

theorem Calm.upToDate (h : st.Calm) : st.UpToDate :=
  fun _ ha _ hx ↦ h.fresh.value_eq h.queue ha not_false hx

/-- A script that writes nothing leaves all effects up to date. -/
theorem Calm.run (h : st.Calm) {r : Runner V R (W × Diary V R) Q A} {limit : Nat}
    {p : Script V R W Q A α} (hp : p.Quiet) {a : α}
    (hrun : r.run limit p.observed st = some (a, st')) : st'.Calm := by
  induction p generalizing st with
  | done _ =>
    obtain ⟨-, rfl⟩ := Prod.mk.inj (Option.some.inj hrun)
    exact h
  | look k ih => exact ih _ _ h (hp _ _) hrun
  | change f k ih =>
    have hchange : State.Calm { st with world := (f st.world.1, st.world.2) } :=
      ⟨⟨h.grounded.flagged, h.grounded.subscribed⟩, h.queue, h.fresh⟩
    exact ih hchange hp hrun
  | newSignal v k ih =>
    exact ih _ ⟨h.grounded.newSignal v, h.queue, h.fresh.newSignal h.grounded v⟩ (hp _) hrun
  | read s k ih =>
    rw [Script.observed, Runner.run, Runner.run_noteRead] at hrun
    refine ih _ ⟨h.grounded.read s _, ?_, h.fresh.read s⟩ (hp _) hrun
    rw [graph_noteRead, graph_withGraph, Graph.queue_track]
    exact h.queue
  | write => exact hp.elim
  | effect => exact hp.elim
  | stop e k ih => exact ih ⟨h.grounded.stop e, h.queue, h.fresh.stop e⟩ hp hrun
  | call => exact hp.elim

end State

/-! ## Registering an effect -/

namespace Meaning

variable (m : Meaning V R W Q A)

/-- A new effect whose body writes nothing leaves all effects up to date. -/
theorem calm_of_effect {fuel : Nat} {b : R} {e : EffectId} {st st' : State V R (W × Diary V R)}
    (h : st.Calm) (hb : (m.body b).Quiet)
    (hrun : m.observed.run fuel (Script.observed (.effect b .done)) st = some (e, st')) :
    st'.Calm := by
  obtain ⟨st₁, heffect, hdone⟩ := Option.bind_eq_some_iff.mp hrun
  obtain rfl : st₁ = st' := congrArg Prod.snd (Option.some.inj hdone)
  have heffect : Runner.runEffect _ (st.graph.newEffect b).1
    (st.withGraph (st.graph.newEffect b).2) = some st₁ := heffect
  rw [Runner.runEffect_newEffect] at heffect
  obtain ⟨st₂, hbody, rfl⟩ := Option.map_eq_some_iff.mp heffect
  cases fuel with
  | zero => contradiction
  | succ fuel =>
    rw [m.observed_runner_succ_body] at hbody
    obtain ⟨⟨_, st₃⟩, hscript, rfl⟩ := Option.map_eq_some_iff.mp hbody
    have hbegun : ((st.withGraph (st.graph.newEffect b).2).begin (st.graph.newEffect b).1).Calm :=
      ⟨h.grounded.begin_newEffect b, h.queue, h.fresh.begin_newEffect b⟩
    have hended := hbegun.run hb hscript
    refine ⟨hended.grounded.finish _ _ b, ?_, hended.fresh.finish _ _ b⟩
    exact (Graph.queue_endRun ..).trans hended.queue

open State in
/-- **What registering an effect leaves stale.** Take any state that a program leaves behind and in
which all active effects are up to date, and register an effect outside of any run. If that returns,
then nothing is queued and nothing runs; every active effect is up to date, but for those that were
registered meanwhile and were stale already when a run of theirs ended outside of any flush; and if
the body writes nothing, every active effect is. -/
theorem upToDate_or_overtaken_of_effect {fuel₀ fuel : Nat} {p : Script V R W Q A α} {w : W} {a : α}
    {st : State V R (W × Diary V R)} {b : R} {e : EffectId} {last : State V R W}
    (hp : m.observed.run fuel₀ p.observed ⟨.empty, w, []⟩ = some (a, st)) (hst : st.UpToDate)
    (heffect : m.run fuel (.effect b .done) st.erase = some (e, last)) :
    ∃ st', m.observed.run fuel (Script.observed (.effect b .done)) st = some (e, st') ∧
      st'.erase = last ∧ st'.graph.queue = [] ∧ st'.graph.current = none ∧
      (∀ e', st'.graph.isActive e' = true →
        st'.IsCurrent e' ∨ st.graph.effects.size ≤ e'.index ∧ st'.diary.Overtaken e') ∧
      ((m.body b).Quiet → st'.UpToDate) := by
  rw [← m.run_observed] at heffect
  obtain ⟨⟨e₁, st'⟩, hrun, hlast⟩ := Option.map_eq_some_iff.mp heffect
  obtain ⟨rfl, rfl⟩ := Prod.mk.inj hlast
  have hbefore := m.run_of_steady continues_steady hp
  have hgrounded : st.Grounded := m.run_of_steady grounded_steady hp
    ⟨fun e he ↦ Bool.noConfusion he, fun e ha ↦ Bool.noConfusion ha⟩
  have hqueue : st.graph.queue = [] :=
    m.run_of_steady drained_steady hp (fun _ ↦ rfl) hbefore.flushing
  have hpoised : st.Poised st.graph.effects.size :=
    ⟨hbefore.flushing, hqueue, hgrounded, Nat.le_refl _, fun e ha _ ↦ .inl (hst e ha)⟩
  have hproceeds := m.run_of_steady proceeds_steady hrun
  have hpoised' := hproceeds.poised _ hpoised
  have hbodies := (hbefore.trans hproceeds.continues).bodies fun e ha ↦ Bool.noConfusion ha
  refine ⟨st', hrun, rfl, hpoised'.queue, ?_, fun e' ha ↦ ?_, fun hb ↦ ?_⟩
  · exact hproceeds.continues.current.trans hbefore.current
  · exact hpoised'.current e' ha (hbodies e' ha)
  · exact (m.calm_of_effect ⟨hgrounded, hqueue, hst.fresh _⟩ hb hrun).upToDate

end Meaning

/-! ### An effect that overtakes itself -/

/-- Two bodies: one reads the first signal and then writes it, the other only reads it. -/
def overtaker : Meaning Nat Bool Unit Empty fun _ ↦ Unit where
  body writes :=
    if writes then .read ⟨0⟩ fun _ ↦ .write ⟨0⟩ 1 (.done ())
    else .read ⟨0⟩ fun _ ↦ .done ()
  call q := nomatch q

/-- A signal, and an effect that reads it. -/
def overtakerStart : Script Nat Bool Unit Empty (fun _ ↦ Unit) Unit :=
  .newSignal 0 fun _ ↦ .effect false fun _ ↦ .done ()

/-- The signal and its reader, once they are set up. -/
def overtakerReady : State Nat Bool (Unit × Diary Nat Bool) :=
  ((overtaker.observed.run 3 overtakerStart.observed ⟨.empty, (), []⟩).get rfl).2

theorem overtakerReady_upToDate : overtakerReady.UpToDate := by
  intro e ha x hx
  have hlt : e.index < 1 := Graph.lt_of_isActive ha
  obtain ⟨_ | n⟩ := e
  · obtain rfl := List.mem_singleton.mp (show x ∈ [(⟨0⟩, 0)] from hx)
    rfl
  · exact absurd hlt (Nat.not_lt.mpr (Nat.le_add_left 1 n))

/-- What is left when the effect that reads and writes is registered. -/
def overtakerLast : State Nat Bool (Unit × Diary Nat Bool) :=
  ((overtaker.observed.run 3 (Script.observed (.effect true .done)) overtakerReady).get rfl).2

/-- The effect that writes what it has read is stale when its registration has returned. -/
theorem not_upToDate_of_effect :
    overtaker.observed.run 3 overtakerStart.observed ⟨.empty, (), []⟩ = some ((), overtakerReady) ∧
      overtakerReady.UpToDate ∧
      overtaker.observed.run 3 (Script.observed (.effect true .done)) overtakerReady =
        some (⟨1⟩, overtakerLast) ∧
      ¬ overtakerLast.UpToDate := by
  refine ⟨rfl, overtakerReady_upToDate, rfl, fun h ↦ ?_⟩
  have hread : ((⟨0⟩, 0) : SignalId × Nat) ∈ overtakerLast.diary.latestReads ⟨1⟩ :=
    List.mem_singleton_self _
  exact absurd (h ⟨1⟩ rfl _ hread) (by decide)

/-- The reader is up to date then, and the effect that writes was overtaken. -/
theorem overtaker_overtaken :
    ∃ st', overtaker.observed.run 3 (Script.observed (.effect true .done)) overtakerReady =
        some (⟨1⟩, st') ∧
      st'.erase = overtakerLast.erase ∧ st'.graph.queue = [] ∧ st'.graph.current = none ∧
      (∀ e', st'.graph.isActive e' = true →
        st'.IsCurrent e' ∨ overtakerReady.graph.effects.size ≤ e'.index ∧ st'.diary.Overtaken e') ∧
      ((overtaker.body true).Quiet → st'.UpToDate) := by
  have hready : overtaker.observed.run 3 overtakerStart.observed ⟨.empty, (), []⟩ =
    some ((), overtakerReady) := rfl
  have heffect : overtaker.run 3 (.effect true .done) overtakerReady.erase =
    some (⟨1⟩, overtakerLast.erase) := rfl
  exact overtaker.upToDate_or_overtaken_of_effect hready overtakerReady_upToDate heffect

end LiveMarkup
