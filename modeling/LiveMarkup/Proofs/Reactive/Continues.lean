import Mathlib.Order.Basic
import Mathlib.Order.Nat
import LiveMarkup.Proofs.Reactive.Steady

/-!
# Bodies come back

While an effect runs, its body is taken out of it, and a run that meets an effect without its body
does nothing. `Graph.Continues` says that outside of the run nothing of this is to be seen: whatever
a script does, it comes back to the effect that was current and to the same flush, an effect that
was stopped stays so, and every effect that is still active has the body it had.
-/

namespace LiveMarkup

variable {V R W Q : Type} {A : Q → Type}

/-- What a run makes of a graph, seen from outside: the current effect and the flush are the same,
and active effects have their bodies, those that are new included. -/
structure Graph.Continues (g g' : Graph V R) : Prop where
  size : g.effects.size ≤ g'.effects.size
  current : g'.current = g.current
  flushing : g'.flushing = g.flushing
  old : ∀ e, e.index < g.effects.size → g'.isActive e = true →
    g.isActive e = true ∧ (g'.effect e).body = (g.effect e).body
  new : ∀ e, g.effects.size ≤ e.index → g'.isActive e = true → (g'.effect e).body.isSome = true

namespace Graph.Continues

variable {g g' g'' : Graph V R}

theorem refl (g : Graph V R) : g.Continues g where
  size := Nat.le_refl _
  current := rfl
  flushing := rfl
  old _ _ ha := ⟨ha, rfl⟩
  new _ hle ha := absurd (lt_of_isActive ha) (Nat.not_lt.mpr hle)

theorem trans (h : g.Continues g') (h' : g'.Continues g'') : g.Continues g'' where
  size := h.size.trans h'.size
  current := h'.current.trans h.current
  flushing := h'.flushing.trans h.flushing
  old e hlt ha := by
    obtain ⟨ha', hb'⟩ := h'.old e (hlt.trans_le h.size) ha
    obtain ⟨ha₀, hb⟩ := h.old e hlt ha'
    exact ⟨ha₀, hb'.trans hb⟩
  new e hle ha := by
    by_cases hlt : e.index < g'.effects.size
    · obtain ⟨ha', hb'⟩ := h'.old e hlt ha
      rw [hb']
      exact h.new e hle ha'
    · exact h'.new e (Nat.not_lt.mp hlt) ha

/-- Where every active effect has its body, it has it afterwards. -/
theorem bodies (h : g.Continues g')
    (hbodies : ∀ e, g.isActive e = true → (g.effect e).body.isSome = true) (e : EffectId)
    (ha : g'.isActive e = true) : (g'.effect e).body.isSome = true := by
  by_cases hlt : e.index < g.effects.size
  · obtain ⟨ha', hb⟩ := h.old e hlt ha
    rw [hb]
    exact hbodies e ha'
  · exact h.new e (Nat.not_lt.mp hlt) ha

/-- A step that makes no effect, starts none and leaves the active ones their bodies. -/
theorem of_step (hsize : g'.effects.size = g.effects.size) (hcurrent : g'.current = g.current)
    (hflushing : g'.flushing = g.flushing)
    (heffect : ∀ e, g'.isActive e = true →
      g.isActive e = true ∧ (g'.effect e).body = (g.effect e).body) : g.Continues g' where
  size := hsize.ge
  current := hcurrent
  flushing := hflushing
  old e _ ha := heffect e ha
  new _ hle ha := absurd (lt_of_isActive ha) (Nat.not_lt.mpr (hsize.trans_le hle))

theorem stop (g : Graph V R) (e : EffectId) : g.Continues (g.stop e) := by
  refine of_step (size_stop g e) rfl rfl fun e' ha ↦ ⟨isActive_of_stop ha, ?_⟩
  rw [isActive, effect_stop] at ha
  rw [effect_stop]
  split at ha
  · contradiction
  · rename_i hne
    rw [if_neg hne]

theorem dequeue {e : EffectId} (h : g.dequeue? = some (e, g')) : g.Continues g' := by
  refine of_step ?_ ?_ ?_ fun e' ha ↦ ⟨(isActive_dequeue h e').symm.trans ha, body_dequeue h e'⟩
  · rw [(dequeue?_eq_some h).2]
    exact Array.size_modify
  · rw [(dequeue?_eq_some h).2]
    rfl
  · rw [(dequeue?_eq_some h).2]
    rfl

/-- The first run of an effect, seen from outside. -/
theorem first_run (b : R)
    (h : ((g.newEffect b).2.beginRun (g.newEffect b).1).Continues g') :
    g.Continues (g'.endRun (g.newEffect b).1 g.current (some b)) where
  size := by
    have hsize := h.size
    rw [size_beginRun, size_newEffect] at hsize
    rw [size_endRun]
    omega
  current := current_endRun ..
  flushing := (flushing_endRun ..).trans h.flushing
  old e hlt ha := by
    have hne : e ≠ (g.newEffect b).1 := fun he ↦ (congrArg EffectId.index he).not_lt hlt
    rw [isActive_endRun] at ha
    obtain ⟨ha', hb'⟩ := h.old e (by rw [size_beginRun, size_newEffect]; omega) ha
    rw [effect_endRun, if_neg fun hc ↦ hne hc.1, hb']
    rw [isActive, effect_beginRun, if_neg hne, effect_newEffect, if_neg hne] at ha'
    rw [effect_beginRun, if_neg hne, effect_newEffect, if_neg hne]
    exact ⟨ha', rfl⟩
  new e hle ha := by
    rw [isActive_endRun] at ha
    rw [effect_endRun]
    split
    · rfl
    · rename_i hne
      have hne' : e.index ≠ g.effects.size := fun hi ↦ by
        have he : e = (g.newEffect b).1 := congrArg EffectId.mk hi
        exact hne ⟨he, he ▸ ha⟩
      refine h.new e ?_ ha
      rw [size_beginRun, size_newEffect]
      omega

/-- A later run of an effect, seen from outside: whatever body was there goes back. -/
theorem later_run {e : EffectId} (he : g.isActive e = true) (h : (g.beginRun e).Continues g') :
    g.Continues (g'.endRun e g.current (g.effect e).body) where
  size := by
    have hsize := h.size
    rwa [size_beginRun, ← size_endRun g' e g.current (g.effect e).body] at hsize
  current := current_endRun ..
  flushing := (flushing_endRun ..).trans h.flushing
  old e' hlt ha := by
    rw [isActive_endRun] at ha
    obtain ⟨ha', hb'⟩ := h.old e' ((size_beginRun g e).symm ▸ hlt) ha
    rw [isActive_beginRun] at ha'
    refine ⟨ha', ?_⟩
    rw [effect_endRun]
    split
    · rename_i hc
      rw [hc.1]
    · rename_i hc
      have hne : e' ≠ e := fun hne ↦ hc ⟨hne, hne ▸ ha⟩
      rw [hb', effect_beginRun, if_neg hne]
  new e' hle ha := by
    rw [isActive_endRun] at ha
    have hne : e' ≠ e := fun hne ↦ (lt_of_isActive he).not_ge (hne ▸ hle)
    rw [effect_endRun, if_neg fun hc ↦ hne hc.1]
    exact h.new e' ((size_beginRun g e).trans_le hle) ha

end Graph.Continues

namespace State

variable [Inhabited V]

open LiveMarkup.Graph in
theorem continues_moves : Moves fun st st' : State V R (W × Diary V R) ↦
    st.graph.Continues st'.graph where
  refl st := Continues.refl st.graph
  trans _ _ _ := Continues.trans
  write st s v := Continues.of_step (size_write ..) (current_write ..) (flushing_write ..)
    fun e ha ↦ ⟨(isActive_write st.graph s v e).symm.trans ha, body_write ..⟩
  dequeue _ _ _ := Continues.dequeue
  idle st e ha hb := by
    rw [graph_withGraph, ← hb]
    exact Continues.later_run ha (Continues.refl _)
  rerun st e b st' ha hb h := by
    rw [finish, ← hb]
    exact Continues.later_run ha h
  flush st st' hf h := by
    exact ⟨h.size, h.current, hf.symm, h.old, h.new⟩

open LiveMarkup.Graph in
theorem continues_steady : Steady Q A fun st st' : State V R (W × Diary V R) ↦
    st.graph.Continues st'.graph where
  refl st := Continues.refl st.graph
  trans _ _ _ := Continues.trans
  change st _ := Continues.refl st.graph
  newSignal st v := Continues.of_step rfl rfl rfl fun _ ha ↦ ⟨ha, rfl⟩
  read st s := by
    rw [graph_noteRead, graph_withGraph]
    refine Continues.of_step (congrArg Array.size (effects_track ..)) (current_track ..)
      (flushing_track ..) fun e ha ↦ ?_
    rw [isActive, effect_track] at ha
    rw [effect_track]
    exact ⟨ha, rfl⟩
  stop st e := Continues.stop st.graph e
  effect st b _ h := Continues.first_run b h
  write _ hr _ _ _ _ _ hrun := continues_moves.write_flush hr hrun

end State

end LiveMarkup
