import LiveMarkup.Proofs.Reactive.Freshness
import LiveMarkup.Proofs.Reactive.Tracking

/-!
# Between programs

Where no code runs, a graph is simple: no effect is tracked, nothing waits, and every active effect
has its body (`Graph.Quiescent`). This is how any code leaves a graph that it has built
(`Meaning.quiescent_of_run`).

What is over stays over: an effect that is stopped, now or while code runs, never begins to run
again (`History.Final`).
-/

namespace LiveMarkup

variable {V R W Q : Type} {A : Q → Type} {α : Type} [Inhabited V]

/-! ## Quiescent graphs -/

/-- Whether nothing runs and nothing waits. -/
structure Graph.Quiescent (g : Graph V R) : Prop where
  current : g.current = none
  flushing : g.flushing = false
  queue : g.queue = []
  flags : ∀ e, (g.effect e).queued = false
  bodies : ∀ e, g.isActive e = true → (g.effect e).body.isSome = true
  nodup : ∀ s, (g.activeSubscribers s).Nodup

open State in
/-- The state that code leaves behind on a new graph is quiescent. -/
theorem Meaning.quiescent_of_run (m : Meaning V R W Q A) {fuel : Nat} {p : Script V R W Q A α}
    {w : W} {a : α} {st : State V R W} (hrun : m.run fuel p ⟨.empty, w⟩ = some (a, st)) :
    st.graph.Quiescent := by
  have hobserved := m.run_observed fuel p ⟨.empty, w, []⟩
  rw [show State.erase ⟨.empty, w, []⟩ = (⟨.empty, w⟩ : State V R W) from rfl, hrun] at hobserved
  obtain ⟨x, hx, hlast⟩ := Option.map_eq_some_iff.mp hobserved
  obtain rfl : x.2.erase = st := congrArg Prod.snd hlast
  have hcontinues := m.run_of_steady continues_steady hx
  have hgrounded : x.2.Grounded := m.run_of_steady grounded_steady hx
    ⟨fun e he ↦ Bool.noConfusion he, fun e ha ↦ Bool.noConfusion ha⟩
  have hqueue : x.2.graph.queue = [] :=
    m.run_of_steady drained_steady hx (fun _ ↦ rfl) hcontinues.flushing
  obtain ⟨τ, hτ⟩ := m.exists_fuel_iff.mp ⟨fuel, hrun⟩
  have htracked : Tracked τ x.2.erase.graph := (hτ.throughout Tracked.invariant .empty).2
  constructor
  case current => exact hcontinues.current
  case flushing => exact hcontinues.flushing
  case queue => exact hqueue
  case flags =>
    intro e
    rw [Bool.eq_false_iff]
    intro he
    have hwaits : e ∈ x.2.graph.queue := hgrounded.flagged e he
    rw [hqueue] at hwaits
    exact absurd hwaits List.not_mem_nil
  case bodies => exact hcontinues.bodies fun e ha ↦ Bool.noConfusion ha
  case nodup => exact htracked.attributed.nodup

/-! ## Stopped effects -/

/-- The effect that begins to run, if one does. -/
def Occurrence.begins : Occurrence V → Option EffectId
  | .began e => some e
  | _ => none

/-- The effect that is stopped, if one is. -/
def Occurrence.stops : Occurrence V → Option EffectId
  | .stopped e => some e
  | _ => none

namespace History

/-- The effects whose bodies begin to run in a history, in order. -/
def begun (τ : History V R) : List EffectId := τ.filterMap fun n ↦ n.what.begins

omit [Inhabited V] in
theorem begun_append (τ τ' : History V R) : begun (τ ++ τ') = begun τ ++ begun τ' :=
  List.filterMap_append

omit [Inhabited V] in
theorem exists_of_mem_begun {τ : History V R} {e : EffectId} (h : e ∈ τ.begun) :
    ∃ before g after, τ = before ++ ⟨.began e, g⟩ :: after := by
  obtain ⟨⟨what, g⟩, hn, he⟩ := List.mem_filterMap.mp h
  obtain ⟨before, after, rfl⟩ := List.append_of_mem hn
  cases what with
  | began e' =>
    obtain rfl := Option.some.inj he
    exact ⟨before, g, after, rfl⟩
  | _ => contradiction

/-- Whether nothing has begun to run that was stopped before, be it among those that `gone` says
were stopped from the start, and whether all that is stopped is so in the graph. -/
structure Final (gone : EffectId → Prop) (past : History V R) (g : Graph V R) : Prop where
  stopped : ∀ e, (gone e ∨ ∃ n ∈ past, n.what = .stopped e) →
    e.index < g.effects.size ∧ g.isActive e = false
  began : ∀ before e g' after, past = before ++ ⟨.began e, g'⟩ :: after →
    ¬ gone e ∧ ∀ n ∈ before, n.what ≠ .stopped e

namespace Final

variable {gone : EffectId → Prop} {past : History V R} {g g' : Graph V R}

omit [Inhabited V] in
/-- A step of the graph in which no effect becomes active. -/
theorem keep (h : Final gone past g) (heffects : g.effects.size ≤ g'.effects.size)
    (hactive : ∀ e, e.index < g.effects.size → g'.isActive e = true → g.isActive e = true) :
    Final gone past g' where
  stopped e he := by
    obtain ⟨hlt, ha⟩ := h.stopped e he
    refine ⟨Nat.lt_of_lt_of_le hlt heffects, ?_⟩
    rw [Bool.eq_false_iff] at ha ⊢
    exact fun ha' ↦ ha (hactive e hlt ha')
  began := h.began

omit [Inhabited V] in
/-- One thing more has happened. If an effect has begun then it was active, and if one was stopped
then the graph knows. -/
theorem note (h : Final gone past g) {n : Point V R}
    (hbegan : ∀ e, n.what.begins = some e → g.isActive e = true)
    (hstopped : ∀ e, n.what.stops = some e →
      e.index < g.effects.size ∧ g.isActive e = false) :
    Final gone (past ++ [n]) g where
  stopped e he := by
    rcases he with he | ⟨n', hn', he⟩
    · exact h.stopped e (.inl he)
    · rcases List.mem_append.mp hn' with hn' | hn'
      · exact h.stopped e (.inr ⟨n', hn', he⟩)
      · rw [List.mem_singleton.mp hn'] at he
        exact hstopped e (congrArg Occurrence.stops he)
  began before e g₁ after hsplit := by
    rcases List.eq_nil_or_concat after with rfl | ⟨after', last, rfl⟩
    · obtain ⟨rfl, hn⟩ := List.append_inj' hsplit rfl
      have ha := hbegan e (congrArg (Occurrence.begins ∘ Point.what) (List.singleton_inj.mp hn))
      have hnot : ¬ (gone e ∨ ∃ n' ∈ past, n'.what = .stopped e) :=
        fun he ↦ Bool.noConfusion (ha.symm.trans (h.stopped e he).2)
      exact ⟨fun he ↦ hnot (.inl he), fun n' hn' he ↦ hnot (.inr ⟨n', hn', he⟩)⟩
    · rw [List.concat_eq_append, ← List.cons_append, ← List.append_assoc] at hsplit
      exact h.began before e g₁ after' (List.append_inj_left' hsplit rfl)

omit [Inhabited V] in
/-- Something has happened besides. -/
theorem pass (h : Final gone past g) {n : Point V R} (hbegins : n.what.begins = none)
    (hstops : n.what.stops = none) : Final gone (past ++ [n]) g := by
  refine h.note (fun e he ↦ ?_) fun e he ↦ ?_
  · exact absurd (hbegins.symm.trans he).symm (Option.some_ne_none e)
  · exact absurd (hstops.symm.trans he).symm (Option.some_ne_none e)

omit [Inhabited V] in
theorem not_mem_begun (h : Final gone past g) {e : EffectId} (he : gone e) : e ∉ past.begun := by
  intro hbegun
  obtain ⟨before, g', after, hsplit⟩ := exists_of_mem_begun hbegun
  exact (h.began before e g' after hsplit).1 he

omit [Inhabited V] in
theorem not_mem_begun_of_stopped (h : Final gone past g) {before after : History V R} {e : EffectId}
    {g' : Graph V R} (hsplit : past = before ++ ⟨.stopped e, g'⟩ :: after) : e ∉ after.begun := by
  intro hbegun
  obtain ⟨between, g₁, later, rfl⟩ := exists_of_mem_begun hbegun
  rw [← List.cons_append, ← List.append_assoc] at hsplit
  exact (h.began _ e g₁ later hsplit).2 _ (List.mem_append_right _ List.mem_cons_self) rfl

theorem invariant (gone : EffectId → Prop) : Invariant (Final (V := V) (R := R) gone) where
  looked _ _ h := h.pass rfl rfl
  changed _ _ h := h.pass rfl rfl
  newSignal _ g v h := by
    have hkept : Final gone _ (g.newSignal v).2 := h.keep (Nat.le_refl _) fun _ _ ha ↦ ha
    exact hkept.pass rfl rfl
  read _ g s _ h := by
    have hkept : Final gone _ (g.track s) :=
      h.keep (Nat.le_of_eq (congrArg Array.size (Graph.effects_track g s).symm))
        fun e _ ha ↦ (congrArg Effect.active (Graph.effect_track g s e)).symm.trans ha
    exact hkept.pass rfl rfl
  write _ g s v h := by
    have hkept : Final gone _ (g.write s v) :=
      h.keep (Nat.le_of_eq (Graph.size_write ..).symm)
        fun e _ ha ↦ (Graph.isActive_write g s v e).symm.trans ha
    exact hkept.pass rfl rfl
  flush _ _ _ h := h.keep (Nat.le_refl _) fun _ _ ha ↦ ha
  dequeue _ _ _ _ hd h := h.keep (Nat.le_of_eq (Graph.size_dequeue hd).symm)
    fun e _ ha ↦ (Graph.isActive_dequeue hd e).symm.trans ha
  settled _ g _ h := by
    have hkept : Final gone _ { g with flushing := false } := h.keep (Nat.le_refl _) fun _ _ ha ↦ ha
    exact hkept.pass rfl rfl
  newEffect past g b h := by
    have hkept : Final gone past (g.newEffect b).2 := by
      refine h.keep (Nat.le_of_lt (Nat.lt_of_lt_of_eq (Nat.lt_succ_self _)
        (Graph.size_newEffect g b).symm)) fun e hlt ha ↦ ?_
      rw [Graph.isActive, Graph.effect_newEffect, if_neg] at ha
      · exact ha
      · rintro rfl
        exact Nat.lt_irrefl _ hlt
    exact hkept.pass rfl rfl
  registered _ _ _ h := h.pass rfl rfl
  stop _ g e hlt h := by
    have hkept : Final gone _ (g.stop e) :=
      h.keep (Nat.le_of_eq (Graph.size_stop g e).symm) fun _ _ ha ↦ Graph.isActive_of_stop ha
    refine hkept.note (fun e' he' ↦ absurd he'.symm (Option.some_ne_none e')) fun e' he' ↦ ?_
    obtain rfl := Option.some.inj he'
    refine ⟨Nat.lt_of_lt_of_eq hlt (Graph.size_stop g e).symm, ?_⟩
    rw [Graph.isActive, Graph.effect_stop, if_pos rfl]
  began _ g e _ ha _ h := by
    have hkept : Final gone _ (g.beginRun e) :=
      h.keep (Nat.le_of_eq (Graph.size_beginRun g e).symm)
        fun e' _ ha' ↦ (Graph.isActive_beginRun g e e').symm.trans ha'
    refine hkept.note (fun e' he' ↦ ?_) fun e' he' ↦ absurd he'.symm (Option.some_ne_none e')
    obtain rfl := Option.some.inj he'
    exact (Graph.isActive_beginRun g e e).trans ha
  ended past g e b τ g' _ _ _ _ h := by
    have hkept : Final gone _ (g'.endRun e g.current (some b)) :=
      h.keep (Nat.le_of_eq (Graph.size_endRun ..).symm)
        fun e' _ ha ↦ (Graph.isActive_endRun g' e _ _ e').symm.trans ha
    rw [← List.cons_append, ← List.append_assoc]
    exact hkept.pass rfl rfl

end Final

end History

end LiveMarkup
