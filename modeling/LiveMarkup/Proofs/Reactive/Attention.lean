import LiveMarkup.Proofs.Reactive.Registration

/-!
# Effects that cannot miss a signal

An effect runs again only when something is written that it has read. So it follows a signal only if
it reads the signal in every run, whichever way its code goes. `Script.Consults` says so of code:
each of its ways passes a read of the signal, or a call that does. What the code finds in the world
decides on its way, so it is a fact about the world that makes the code find the signal, and that
fact has to last: `Script.Retains` says of code that it changes the world only to one in which the
fact still holds.

Then every effect of the given kind that has its body has read the signal in its latest run
(`Meaning.informed_of_run`), whatever other code does meanwhile. Two things carry the proof. What a
running effect has read is not forgotten before its run ends, since a run that meets an effect
without its body does nothing. And when a run ends, its body goes back only behind the read.
-/

namespace LiveMarkup

variable {V R W Q : Type} {A : Q → Type} {α β : Type}

/-! ## What code passes on its way -/

/-- A signal that effects of some kind have to read. -/
structure Concern (R W Q : Type) where
  signal : SignalId
  /-- What holds of the world, so that code finds the signal. -/
  holds : W → Prop
  /-- The calls that read the signal. -/
  calls : Q → Prop
  /-- The bodies that read the signal. -/
  bodies : R → Prop
  /-- The first of the effects to which this applies. -/
  first : Nat

namespace Script

/-- Whether a script keeps a fact about the world, where bodies and calls do. -/
def Retains (I : W → Prop) : Script V R W Q A α → Prop
  | .done _ => True
  | .look k => ∀ g w, I w → (k g w).Retains I
  | .change f k => (∀ w, I w → I (f w)) ∧ k.Retains I
  | .newSignal _ k => ∀ s, (k s).Retains I
  | .read _ k => ∀ v, (k v).Retains I
  | .write _ _ k | .stop _ k => k.Retains I
  | .effect _ k => ∀ e, (k e).Retains I
  | .call _ k => ∀ a, (k a).Retains I

/-- Whether a script reads the signal of a concern, whichever way it goes. -/
def Consults (κ : Concern R W Q) : Script V R W Q A α → Prop
  | .done _ => False
  | .look k => ∀ g w, κ.holds w → (k g w).Consults κ
  | .change _ k | .write _ _ k | .stop _ k => k.Consults κ
  | .newSignal _ k => ∀ s, (k s).Consults κ
  | .read s k => s = κ.signal ∨ ∀ v, (k v).Consults κ
  | .effect _ k => ∀ e, (k e).Consults κ
  | .call q k => κ.calls q ∨ ∀ a, (k a).Consults κ

theorem Retains.bind {I : W → Prop} {p : Script V R W Q A α} {f : α → Script V R W Q A β}
    (hp : p.Retains I) (hf : ∀ a, (f a).Retains I) : (p.bind f).Retains I := by
  induction p with
  | done a => exact hf a
  | look k ih => exact fun g w hw ↦ ih g w (hp g w hw)
  | change h k ih => exact ⟨hp.1, ih hp.2⟩
  | newSignal v k ih => exact fun s ↦ ih s (hp s)
  | read s k ih => exact fun v ↦ ih v (hp v)
  | write s v k ih => exact ih hp
  | effect b k ih => exact fun e ↦ ih e (hp e)
  | stop e k ih => exact ih hp
  | call q k ih => exact fun a ↦ ih a (hp a)

variable {κ : Concern R W Q}

theorem Consults.bind {p : Script V R W Q A α} (hp : p.Consults κ)
    (f : α → Script V R W Q A β) : (p.bind f).Consults κ := by
  induction p with
  | done a => exact hp.elim
  | look k ih => exact fun g w hw ↦ ih g w (hp g w hw)
  | change h k ih => exact ih hp
  | newSignal v k ih => exact fun s ↦ ih s (hp s)
  | read s k ih => exact hp.imp_right fun h v ↦ ih v (h v)
  | write s v k ih => exact ih hp
  | effect b k ih => exact fun e ↦ ih e (hp e)
  | stop e k ih => exact ih hp
  | call q k ih => exact hp.imp_right fun h a ↦ ih a (h a)

theorem Consults.bind_right (p : Script V R W Q A α) {f : α → Script V R W Q A β}
    (hf : ∀ a, (f a).Consults κ) : (p.bind f).Consults κ := by
  induction p with
  | done a => exact hf a
  | look k ih => exact fun g w _ ↦ ih g w
  | change h k ih => exact ih
  | newSignal v k ih => exact ih
  | read s k ih => exact .inr ih
  | write s v k ih => exact ih
  | effect b k ih => exact ih
  | stop e k ih => exact ih
  | call q k ih => exact .inr ih

end Script

/-- Whether bodies and calls read the signal of a concern where they are said to, and all of them
keep the fact by which it is found. -/
structure Meaning.Heeds (m : Meaning V R W Q A) (κ : Concern R W Q) : Prop where
  retains_body : ∀ b, (m.body b).Retains κ.holds
  retains_call : ∀ q, (m.call q).Retains κ.holds
  body : ∀ b, κ.bodies b → (m.body b).Consults κ
  call : ∀ q, κ.calls q → (m.call q).Consults κ

/-! ## Effects whose bodies are taken out -/

namespace Graph

/-- Whether an effect has no body: it runs, or it was stopped. -/
structure IsOut (g : Graph V R) (e : EffectId) : Prop where
  lt : e.index < g.effects.size
  body : (g.effect e).body = none

/-- Whether an effect runs innermost. -/
structure Runs (g : Graph V R) (e : EffectId) : Prop extends g.IsOut e where
  current : g.current = some e

theorem isOut_stop {g : Graph V R} {e : EffectId} (h : g.IsOut e) (e' : EffectId) :
    (g.stop e').IsOut e := by
  refine ⟨(size_stop g e').symm ▸ h.lt, ?_⟩
  rw [effect_stop]
  split
  · rfl
  · exact h.body

end Graph

namespace State

variable {st st' st'' : State V R (W × Diary V R)}

/-- Whether an effect has read a signal in its latest run. -/
def HasRead (st : State V R (W × Diary V R)) (e : EffectId) (s : SignalId) : Prop :=
  ∃ v, (s, v) ∈ st.diary.latestReads e

theorem latestReads_noteRead (st : State V R (W × Diary V R)) (s : SignalId) (v : V)
    (e : EffectId) :
    (st.noteRead s v).diary.latestReads e =
      if s.index < st.graph.signals.size ∧ st.graph.current = some e then
        st.diary.latestReads e ++ [(s, v)]
      else st.diary.latestReads e := by
  unfold noteRead
  split
  · rename_i hs
    rw [diary_note, Diary.latestReads_append_singleton, Note.readsAfter]
    simp only [hs, true_and]
  · rename_i hs
    rw [if_neg fun hc ↦ hs hc.1]

theorem HasRead.noteRead {e : EffectId} {s : SignalId} (h : st.HasRead e s) (s' : SignalId)
    (v : V) : (st.noteRead s' v).HasRead e s := by
  obtain ⟨u, hu⟩ := h
  refine ⟨u, ?_⟩
  rw [latestReads_noteRead]
  split
  · exact List.mem_append_left _ hu
  · exact hu

/-- What the current effect reads it has read. -/
theorem hasRead_noteRead {e : EffectId} {s : SignalId} (hs : s.index < st.graph.signals.size)
    (he : st.graph.current = some e) (v : V) : (st.noteRead s v).HasRead e s := by
  refine ⟨v, ?_⟩
  rw [latestReads_noteRead, if_pos ⟨hs, he⟩]
  exact List.mem_append_right _ (List.mem_singleton_self _)

/-- What a run leaves to the effects whose bodies are out when it begins: they stay out, what they
have read is not forgotten, and the innermost of them is so again. -/
structure Minds (st st' : State V R (W × Diary V R)) : Prop where
  current : st'.graph.current = st.graph.current
  isOut : ∀ e, st.graph.IsOut e → st'.graph.IsOut e
  hasRead : ∀ e, st.graph.IsOut e → ∀ s, st.HasRead e s → st'.HasRead e s

namespace Minds

theorem refl (st : State V R (W × Diary V R)) : st.Minds st :=
  ⟨rfl, fun _ h ↦ h, fun _ _ _ h ↦ h⟩

theorem trans (h : st.Minds st') (h' : st'.Minds st'') : st.Minds st'' :=
  ⟨h'.current.trans h.current, fun e he ↦ h'.isOut e (h.isOut e he),
    fun e he s hs ↦ h'.hasRead e (h.isOut e he) s (h.hasRead e he s hs)⟩

theorem runs (h : st.Minds st') {e : EffectId} (he : st.graph.Runs e) : st'.graph.Runs e :=
  ⟨h.isOut e he.toIsOut, h.current.trans he.current⟩

/-- A step that notes nothing and leaves the bodies alone. -/
theorem of_step (hdiary : st'.diary = st.diary) (hcurrent : st'.graph.current = st.graph.current)
    (hsize : st.graph.effects.size ≤ st'.graph.effects.size)
    (hbody : ∀ e, st.graph.IsOut e → (st'.graph.effect e).body = none) : st.Minds st' where
  current := hcurrent
  isOut e he := ⟨he.lt.trans_le hsize, hbody e he⟩
  hasRead e _ s h := by rwa [HasRead, hdiary]

theorem dequeue {e : EffectId} {g : Graph V R} (h : st.graph.dequeue? = some (e, g)) :
    st.Minds (st.withGraph g) :=
  .of_step rfl (Graph.Continues.dequeue h).current (Graph.Continues.dequeue h).size
    fun e' he' ↦ (Graph.body_dequeue h e').trans he'.body

theorem newEffect (st : State V R (W × Diary V R)) (b : R) :
    st.Minds (st.withGraph (st.graph.newEffect b).2) := by
  refine .of_step rfl rfl ?_ fun e he ↦ ?_
  · rw [graph_withGraph, Graph.size_newEffect]
    exact Nat.le_succ _
  · have hne : e ≠ (st.graph.newEffect b).1 := fun hc ↦ (congrArg EffectId.index hc).not_lt he.lt
    rw [graph_withGraph, Graph.effect_newEffect, if_neg hne]
    exact he.body

/-- The run of an effect whose body was there. -/
theorem of_begin {e : EffectId} (b : R) (hb : (st.graph.effect e).body ≠ none)
    (h : (st.begin e).Minds st') :
    st.Minds (st'.finish e st.graph.current b) := by
  have hother {e' : EffectId} (he' : st.graph.IsOut e') : e' ≠ e :=
    fun hc ↦ hb (hc ▸ he'.body)
  have hbegin {e' : EffectId} (he' : st.graph.IsOut e') : (st.begin e).graph.IsOut e' := by
    refine ⟨(Graph.size_beginRun st.graph e).symm ▸ he'.lt, ?_⟩
    rw [begin, graph_note, graph_withGraph, Graph.effect_beginRun, if_neg (hother he')]
    exact he'.body
  refine ⟨Graph.current_endRun .., fun e' he' ↦ ?_, fun e' he' s hs ↦ ?_⟩
  · have hout := h.isOut e' (hbegin he')
    refine ⟨(Graph.size_endRun ..).symm ▸ hout.lt, ?_⟩
    rw [finish, graph_withGraph, Graph.effect_endRun, if_neg fun hc ↦ hother he' hc.1]
    exact hout.body
  · rw [HasRead, latestReads_finish]
    refine h.hasRead e' (hbegin he') s ?_
    rwa [HasRead, latestReads_begin, if_neg (hother he')]

/-- A run that meets an effect without its body. -/
theorem idle (st : State V R (W × Diary V R)) (e : EffectId) :
    st.Minds (st.withGraph ((st.graph.beginRun e).endRun e st.graph.current none)) := by
  refine .of_step rfl (Graph.current_endRun ..) ?_ fun e' he' ↦ ?_
  · rw [graph_withGraph, Graph.size_endRun, Graph.size_beginRun]
  · rw [graph_withGraph, Graph.effect_endRun]
    split
    · rfl
    · rw [Graph.effect_beginRun]
      split
      · rfl
      · exact he'.body

theorem flushing (st : State V R (W × Diary V R)) (flushing : Bool) :
    st.Minds (st.withGraph { st.graph with flushing }) :=
  .of_step rfl rfl (Nat.le_refl _) fun _ he ↦ he.body

end Minds

variable [Inhabited V]

theorem minds_moves : Moves fun st st' : State V R (W × Diary V R) ↦ st.Minds st' where
  refl := .refl
  trans _ _ _ := .trans
  write st s v := .of_step rfl (Graph.current_write ..) (Graph.size_write ..).ge
    fun e he ↦ (Graph.body_write ..).trans he.body
  dequeue _ _ _ := .dequeue
  idle st e _ _ := .idle st e
  rerun _ _ b _ _ hb h := .of_begin b (hb ▸ Option.some_ne_none _) h
  flush _ _ _ h := by
    exact ((Minds.flushing _ true).trans h).trans (.flushing _ false)

theorem minds_steady : Steady Q A fun st st' : State V R (W × Diary V R) ↦ st.Minds st' where
  refl := .refl
  trans _ _ _ := .trans
  change st _ := ⟨rfl, fun _ h ↦ h, fun _ _ _ h ↦ h⟩
  newSignal _ _ := .of_step rfl rfl (Nat.le_refl _) fun _ he ↦ he.body
  read st s := by
    have hgraph := graph_noteRead (st.withGraph (st.graph.track s)) s (st.graph.value s)
    refine ⟨?_, fun e he ↦ ⟨?_, ?_⟩, fun e _ s' hs' ↦ ?_⟩
    · rw [hgraph, graph_withGraph, Graph.current_track]
    · rw [hgraph, graph_withGraph, Graph.effects_track]
      exact he.lt
    · rw [hgraph, graph_withGraph, Graph.effect_track]
      exact he.body
    · have htracked : (st.withGraph (st.graph.track s)).HasRead e s' := hs'
      exact htracked.noteRead s _
  stop st e := .of_step rfl rfl (Graph.size_stop ..).ge fun e' he' ↦ (Graph.isOut_stop he' e).body
  effect st b st' h := by
    have hbody : ((st.graph.newEffect b).2.effect (st.graph.newEffect b).1).body ≠ none := by
      rw [Graph.effect_newEffect_self]
      exact Option.some_ne_none _
    exact (Minds.newEffect st b).trans (.of_begin b hbody h)
  write _ hr _ _ _ _ _ hrun := minds_moves.write_flush hr hrun

/-! ## Effects that have read a signal -/

/-- Whether the fact holds by which the signal of a concern is found, and each effect that it
applies to has read the signal, as soon as it has its body. -/
structure Informed (κ : Concern R W Q) (st : State V R (W × Diary V R)) : Prop where
  holds : κ.holds st.world.1
  lt : κ.signal.index < st.graph.signals.size
  hasRead : ∀ e b, κ.first ≤ e.index → st.graph.isActive e = true →
    (st.graph.effect e).body = some b → κ.bodies b → st.HasRead e κ.signal

variable {κ : Concern R W Q}

omit [Inhabited V]

/-- A step that gives no effect a body, and forgets nothing that an effect with a body has read. -/
theorem Informed.of_step (h : st.Informed κ) (hholds : κ.holds st'.world.1)
    (hsize : st.graph.signals.size ≤ st'.graph.signals.size)
    (hstep : ∀ e b, st'.graph.isActive e = true → (st'.graph.effect e).body = some b →
      st.graph.isActive e = true ∧ (st.graph.effect e).body = some b ∧
        (st.HasRead e κ.signal → st'.HasRead e κ.signal)) : st'.Informed κ where
  holds := hholds
  lt := h.lt.trans_le hsize
  hasRead e b he ha hb hκ := by
    obtain ⟨ha₀, hb₀, hread⟩ := hstep e b ha hb
    exact hread (h.hasRead e b he ha₀ hb₀ hκ)

/-- When a run begins its effect has no body, so nothing is asked of it. -/
theorem Informed.begin (h : st.Informed κ) (e : EffectId) : (st.begin e).Informed κ := by
  refine h.of_step h.holds (Nat.le_refl _) fun e' b ha hb ↦ ?_
  rw [State.begin, graph_note, graph_withGraph, Graph.isActive_beginRun] at ha
  rw [State.begin, graph_note, graph_withGraph, Graph.effect_beginRun] at hb
  split at hb
  · contradiction
  · rename_i hne
    refine ⟨ha, hb, fun hread ↦ ?_⟩
    rwa [HasRead, latestReads_begin, if_neg hne]

theorem Informed.begin_newEffect (h : st.Informed κ) (b : R) :
    ((st.withGraph (st.graph.newEffect b).2).begin (st.graph.newEffect b).1).Informed κ := by
  refine h.of_step h.holds (Nat.le_refl _) fun e b ha hb ↦ ?_
  rw [State.begin, graph_note, graph_withGraph, graph_withGraph, Graph.isActive_beginRun,
    Graph.isActive] at ha
  rw [State.begin, graph_note, graph_withGraph, graph_withGraph, Graph.effect_beginRun] at hb
  split at hb
  · contradiction
  · rename_i hne
    rw [Graph.effect_newEffect, if_neg hne] at ha hb
    refine ⟨ha, hb, fun hread ↦ ?_⟩
    rw [HasRead, latestReads_begin, if_neg hne]
    exact hread

/-- When a run ends its effect gets its body back, and has read the signal. -/
theorem Informed.finish (h : st.Informed κ) {e : EffectId} {b : R}
    (hread : κ.bodies b → st.HasRead e κ.signal) (outer : Option EffectId) :
    (st.finish e outer b).Informed κ := by
  refine ⟨h.holds, ?_, fun e' b' he' ha hb hκ ↦ ?_⟩
  · rw [State.finish, graph_withGraph, Graph.signals_endRun]
    exact h.lt
  · rw [State.finish, graph_withGraph, Graph.isActive_endRun] at ha
    rw [State.finish, graph_withGraph, Graph.effect_endRun] at hb
    rw [HasRead, latestReads_finish]
    split at hb
    · rename_i hrun
      obtain rfl := Option.some.inj hb
      exact hrun.1 ▸ hread hκ
    · exact h.hasRead e' b' he' ha hb hκ

theorem Informed.idle (h : st.Informed κ) (e : EffectId) (outer : Option EffectId) :
    (st.withGraph ((st.graph.beginRun e).endRun e outer none)).Informed κ := by
  refine h.of_step h.holds ?_ fun e' b ha hb ↦ ?_
  · rw [graph_withGraph, Graph.signals_endRun]
    exact Nat.le_refl _
  · rw [graph_withGraph, Graph.isActive_endRun, Graph.isActive_beginRun] at ha
    rw [graph_withGraph, Graph.effect_endRun] at hb
    split at hb
    · contradiction
    · rw [Graph.effect_beginRun] at hb
      split at hb
      · contradiction
      · exact ⟨ha, hb, id⟩

theorem Informed.dequeue (h : st.Informed κ) {e : EffectId} {g : Graph V R}
    (hd : st.graph.dequeue? = some (e, g)) : (st.withGraph g).Informed κ := by
  refine h.of_step h.holds ?_ fun e' b ha hb ↦ ⟨?_, ?_, id⟩
  · rw [graph_withGraph, Graph.signals_dequeue hd]
  · exact (Graph.isActive_dequeue hd e').symm.trans ha
  · exact (Graph.body_dequeue hd e').symm.trans hb

theorem Informed.newSignal (h : st.Informed κ) (v : V) :
    (st.withGraph (st.graph.newSignal v).2).Informed κ := by
  refine h.of_step h.holds ?_ fun e b ha hb ↦ ⟨ha, hb, id⟩
  rw [graph_withGraph, Graph.size_newSignal]
  exact Nat.le_succ _

theorem Informed.stop (h : st.Informed κ) (e : EffectId) :
    (st.withGraph (st.graph.stop e)).Informed κ := by
  refine h.of_step h.holds (Nat.le_refl _) fun e' b ha hb ↦ ?_
  rw [graph_withGraph, Graph.effect_stop] at hb
  split at hb
  · contradiction
  · exact ⟨Graph.isActive_of_stop ha, hb, id⟩

theorem Informed.flushing (h : st.Informed κ) (flushing : Bool) :
    (st.withGraph { st.graph with flushing }).Informed κ :=
  h.of_step h.holds (Nat.le_refl _) fun _ _ ha hb ↦ ⟨ha, hb, id⟩

theorem Informed.read (h : st.Informed κ) (s : SignalId) (v : V) :
    ((st.withGraph (st.graph.track s)).noteRead s v).Informed κ := by
  have hgraph := graph_noteRead (st.withGraph (st.graph.track s)) s v
  refine h.of_step ?_ ?_ fun e b ha hb ↦ ?_
  · unfold noteRead
    split
    · exact h.holds
    · exact h.holds
  · rw [hgraph, graph_withGraph, Graph.size_track]
  · rw [hgraph, graph_withGraph, Graph.isActive, Graph.effect_track] at ha
    rw [hgraph, graph_withGraph, Graph.effect_track] at hb
    refine ⟨ha, hb, fun hread ↦ ?_⟩
    have htracked : (st.withGraph (st.graph.track s)).HasRead e κ.signal := hread
    exact htracked.noteRead s v

variable [Inhabited V]

theorem Informed.write (h : st.Informed κ) (s : SignalId) (v : V) :
    (st.withGraph (st.graph.write s v)).Informed κ := by
  refine h.of_step h.holds (Graph.size_signals_write ..).ge fun e b ha hb ↦ ⟨?_, ?_, id⟩
  · exact (Graph.isActive_write ..).symm.trans ha
  · exact (Graph.body_write ..).symm.trans hb

end State

/-! ## Runs -/

namespace Runner

/-- What a runner does to those who have to read a signal. -/
structure Informs (r : Runner V R (W × Diary V R) Q A) (κ : Concern R W Q) : Prop where
  body : ∀ b st st', (st.note .began).Informed κ → r.body b st = some st' →
    ∃ st₁ : State V R (W × Diary V R), st₁.Informed κ ∧ st' = st₁.note .ended ∧
      (κ.bodies b → ∀ e, st.graph.Runs e → st₁.HasRead e κ.signal)
  call : ∀ q st a st', st.Informed κ → r.call q st = some (a, st') →
    st'.Informed κ ∧ (κ.calls q → ∀ e, st.graph.Runs e → st'.HasRead e κ.signal)

variable {r : Runner V R (W × Diary V R) Q A} {κ : Concern R W Q}
  {st st' : State V R (W × Diary V R)}

namespace Informs

theorem runEffect (h : r.Informs κ) {e : EffectId} (hst : st.Informed κ)
    (hrun : r.runEffect e st = some st') : st'.Informed κ := by
  rcases r.runEffect_cases hrun with ⟨-, rfl⟩ | ⟨-, -, rfl⟩ | ⟨b, st₁, ha, -, hbody, rfl⟩
  · exact hst
  · exact hst.idle e _
  · obtain ⟨st₂, hst₂, rfl, hread⟩ := h.body b _ _ (hst.begin e) hbody
    have hruns : (st.graph.beginRun e).Runs e := by
      refine ⟨⟨(Graph.size_beginRun st.graph e).symm ▸ Graph.lt_of_isActive ha, ?_⟩, rfl⟩
      rw [Graph.effect_beginRun, if_pos rfl]
    exact hst₂.finish (fun hb ↦ hread hb e hruns) _

/-- The first run of an effect. -/
theorem runEffect_newEffect (h : r.Informs κ) {b : R} (hst : st.Informed κ)
    (hrun : r.runEffect (st.graph.newEffect b).1 (st.withGraph (st.graph.newEffect b).2) =
      some st') : st'.Informed κ := by
  rw [r.runEffect_newEffect] at hrun
  obtain ⟨st₁, hbody, rfl⟩ := Option.map_eq_some_iff.mp hrun
  obtain ⟨st₂, hst₂, rfl, hread⟩ := h.body b _ _ (hst.begin_newEffect b) hbody
  have hruns : ((st.graph.newEffect b).2.beginRun (st.graph.newEffect b).1).Runs
      (st.graph.newEffect b).1 := by
    refine ⟨⟨?_, ?_⟩, rfl⟩
    · rw [Graph.size_beginRun, Graph.size_newEffect]
      exact Nat.lt_succ_self _
    · rw [Graph.effect_beginRun, if_pos rfl]
  exact hst₂.finish (fun hb ↦ hread hb _ hruns) _

theorem flush (h : r.Informs κ) {limit : Nat} (hst : st.Informed κ)
    (hrun : r.flush limit st = some st') : st'.Informed κ := by
  rcases r.flush_cases hrun with ⟨-, rfl⟩ | ⟨st₁, -, hdrain, rfl⟩
  · exact hst
  · refine (r.drain_induction (motive := fun st st' ↦ st.Informed κ → st'.Informed κ)
      (fun _ _ ↦ id) (fun st e g st₁ st' hd heffect hrest hst ↦ ?_) hdrain
      (hst.flushing true)).flushing false
    exact hrest (h.runEffect (hst.dequeue hd) heffect)

variable [Inhabited V]

/-- A script that keeps the fact leaves everybody informed. If it reads the signal whichever way it
goes, then the effect that runs it has read it. -/
theorem run (h : r.Informs κ) (hminds : r.BodiesKeep fun st st' ↦ st.Minds st')
    (hcall : ∀ q st a st', r.call q st = some (a, st') → st.Minds st') {limit : Nat}
    {p : Script V R W Q A α} (hp : p.Retains κ.holds) (hst : st.Informed κ) {a : α}
    (hrun : r.run limit p.observed st = some (a, st')) :
    st'.Informed κ ∧ (p.Consults κ → ∀ e, st.graph.Runs e → st'.HasRead e κ.signal) := by
  have hsteady := State.minds_steady (V := V) (R := R) (W := W) (Q := Q) (A := A)
  induction p generalizing st with
  | done _ =>
    obtain ⟨-, rfl⟩ := Prod.mk.inj (Option.some.inj hrun)
    exact ⟨hst, False.elim⟩
  | look k ih =>
    obtain ⟨hst', hread⟩ := ih _ _ (hp _ _ hst.holds) hst hrun
    exact ⟨hst', fun hc ↦ hread (hc _ _ hst.holds)⟩
  | change f k ih =>
    have hst₁ : State.Informed κ { st with world := (f st.world.1, st.world.2) } :=
      ⟨hp.1 _ hst.holds, hst.lt, hst.hasRead⟩
    obtain ⟨hst', hread⟩ := ih hp.2 hst₁ hrun
    exact ⟨hst', hread⟩
  | newSignal v k ih =>
    obtain ⟨hst', hread⟩ := ih _ (hp _) (hst.newSignal v) hrun
    exact ⟨hst', fun hc e he ↦ hread (hc _) e ((hsteady.newSignal st v).runs he)⟩
  | read s k ih =>
    rw [Script.observed, Runner.run, Runner.run_noteRead] at hrun
    obtain ⟨hst', hread⟩ := ih _ (hp _) (hst.read s _) hrun
    have hstep := hsteady.read st s
    refine ⟨hst', fun hc e he ↦ ?_⟩
    rcases hc with rfl | hc
    · -- This is the read, and what follows does not forget it.
      have hnow : ((st.withGraph (st.graph.track κ.signal)).noteRead κ.signal
          (st.graph.value κ.signal)).HasRead e κ.signal := by
        refine State.hasRead_noteRead ?_ ?_ _
        · rw [State.graph_withGraph, Graph.size_track]
          exact hst.lt
        · rw [State.graph_withGraph, Graph.current_track]
          exact he.current
      have hrest := hsteady.run_observed hminds hcall hrun
      exact hrest.hasRead e (hstep.isOut e he.toIsOut) _ hnow
    · exact hread (hc _) e (hstep.runs he)
  | write s v k ih =>
    obtain ⟨st₁, hflush, hk⟩ := Option.bind_eq_some_iff.mp hrun
    obtain ⟨hst', hread⟩ := ih hp (h.flush (hst.write s v) hflush) hk
    have hstep := hsteady.write r hminds limit s v st st₁ hflush
    exact ⟨hst', fun hc e he ↦ hread hc e (hstep.runs he)⟩
  | effect b k ih =>
    obtain ⟨st₁, heffect, hk⟩ := Option.bind_eq_some_iff.mp hrun
    obtain ⟨hst', hread⟩ := ih _ (hp _) (h.runEffect_newEffect hst heffect) hk
    have hstep := hsteady.runEffect_new hminds heffect
    exact ⟨hst', fun hc e he ↦ hread (hc _) e (hstep.runs he)⟩
  | stop e k ih =>
    obtain ⟨hst', hread⟩ := ih hp (hst.stop e) hrun
    exact ⟨hst', fun hc e' he ↦ hread hc e' ((hsteady.stop st e).runs he)⟩
  | call q k ih =>
    obtain ⟨⟨a, st₁⟩, hq, hk⟩ := Option.bind_eq_some_iff.mp hrun
    obtain ⟨hst₁, hanswer⟩ := h.call q st a st₁ hst hq
    obtain ⟨hst', hread⟩ := ih _ (hp _) hst₁ hk
    have hstep := hcall q st a st₁ hq
    refine ⟨hst', fun hc e he ↦ ?_⟩
    rcases hc with hc | hc
    · have hrest := hsteady.run_observed hminds hcall hk
      exact hrest.hasRead e (hstep.isOut e he.toIsOut) _ (hanswer hc e he)
    · exact hread (hc _) e (hstep.runs he)

end Informs

end Runner

namespace Meaning

variable [Inhabited V] {m : Meaning V R W Q A} {κ : Concern R W Q}

/-- By induction on the fuel: a body or call runs on one unit less. -/
theorem informs_runner (hm : m.Heeds κ) (fuel : Nat) : (m.observed.runner fuel).Informs κ := by
  induction fuel with
  | zero => exact ⟨fun _ _ _ _ hb ↦ (nomatch hb), fun _ _ _ _ _ hq ↦ (nomatch hq)⟩
  | succ fuel ih =>
    obtain ⟨hbodies, hcalls⟩ := State.minds_steady.runner m fuel
    constructor
    · intro b st st' hst hb
      rw [m.observed_runner_succ_body] at hb
      obtain ⟨⟨_, st₁⟩, hscript, rfl⟩ := Option.map_eq_some_iff.mp hb
      obtain ⟨hst₁, hread⟩ := ih.run hbodies hcalls (hm.retains_body b) hst hscript
      exact ⟨st₁, hst₁, rfl, fun hκ ↦ hread (hm.body b hκ)⟩
    · intro q st a st' hst hq
      obtain ⟨hst', hread⟩ := ih.run hbodies hcalls (hm.retains_call q) hst hq
      exact ⟨hst', fun hκ ↦ hread (hm.call q hκ)⟩

/-- **No effect misses the signal.** Every run of code that keeps the fact leaves the effects
informed: those to which the concern applies have read the signal in their latest runs. -/
theorem informed_of_run (hm : m.Heeds κ) {fuel : Nat} {p : Script V R W Q A α}
    (hp : p.Retains κ.holds) {st st' : State V R (W × Diary V R)} (hst : st.Informed κ) {a : α}
    (hrun : m.observed.run fuel p.observed st = some (a, st')) : st'.Informed κ := by
  obtain ⟨hbodies, hcalls⟩ := State.minds_steady.runner m fuel
  exact ((informs_runner hm fuel).run hbodies hcalls hp hst hrun).1

/-- A new effect that is not stopped meanwhile has its body when it has run. -/
theorem body_of_run_effect {m : Meaning V R W Q A} {fuel : Nat} {b : R} {e : EffectId}
    {st st' : State V R (W × Diary V R)}
    (hrun : m.observed.run fuel (Script.observed (.effect b .done)) st = some (e, st')) :
    st.graph.effects.size ≤ e.index ∧ e.index < st'.graph.effects.size ∧
      (st'.graph.isActive e = true → (st'.graph.effect e).body = some b) := by
  obtain ⟨st₁, heffect, hdone⟩ := Option.bind_eq_some_iff.mp hrun
  obtain ⟨rfl, rfl⟩ := Prod.mk.inj (Option.some.inj hdone)
  have heffect : Runner.runEffect _ (st.graph.newEffect b).1
    (st.withGraph (st.graph.newEffect b).2) = some st₁ := heffect
  rw [Runner.runEffect_newEffect] at heffect
  obtain ⟨st₂, hbody, rfl⟩ := Option.map_eq_some_iff.mp heffect
  obtain ⟨st₃, hcontinues, rfl⟩ := (State.continues_steady.runner m fuel).1 b _ _ hbody
  refine ⟨Nat.le_refl _, ?_, ?_⟩
  · have hsize := hcontinues.size
    rw [State.graph_note, State.graph_withGraph, Graph.size_beginRun, Graph.size_newEffect] at hsize
    rw [State.graph_withGraph, Graph.size_endRun]
    exact hsize
  · intro ha
    rw [State.graph_withGraph, Graph.isActive_endRun] at ha
    rw [State.graph_withGraph, Graph.effect_endRun, if_pos ⟨rfl, ha⟩]

/-- A new effect to which the concern applies has read the signal in its latest run, whatever code
that keeps the fact runs behind. -/
theorem hasRead_of_run (hm : m.Heeds κ) {fuel fuel' : Nat} {b : R} (hb : κ.bodies b) {e : EffectId}
    {st st₁ st' : State V R (W × Diary V R)} (hholds : κ.holds st.world.1)
    (hlt : κ.signal.index < st.graph.signals.size) (hfirst : κ.first = st.graph.effects.size)
    (heffect : m.observed.run fuel (Script.observed (.effect b .done)) st = some (e, st₁))
    {p : Script V R W Q A α} (hp : p.Retains κ.holds) {a : α}
    (hrun : m.observed.run fuel' p.observed st₁ = some (a, st'))
    (ha : st'.graph.isActive e = true) : st'.Informed κ ∧ st'.HasRead e κ.signal := by
  have hst : st.Informed κ := ⟨hholds, hlt, fun e _ he hactive ↦
    absurd (Graph.lt_of_isActive hactive) (Nat.not_lt.mpr (hfirst ▸ he))⟩
  have hst₁ := informed_of_run hm (p := .effect b .done) (fun _ ↦ trivial) hst heffect
  have hst' := informed_of_run hm hp hst₁ hrun
  obtain ⟨hle, hlt₁, hbody⟩ := body_of_run_effect heffect
  obtain ⟨ha₁, hsame⟩ := (m.run_of_steady State.continues_steady hrun).old e hlt₁ ha
  exact ⟨hst', hst'.hasRead e b (hfirst.trans_le hle) ha (hsame.trans (hbody ha₁)) hb⟩

end Meaning

end LiveMarkup
