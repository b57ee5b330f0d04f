import LiveMarkup.Proofs.Reactive.Steady
import LiveMarkup.Proofs.Reactive.Tracking

/-!
# The queue, the flags and the bodies

Which effects wait is written down twice, in the queue and in a flag of each effect; that a flush is
under way is a flag; and while an effect runs its body is kept aside. Bodies run within bodies, and
flushes within bodies, so these are changed at several depths at once. They stay in order all the
same, at every point that any code comes to (`Meaning.inOrder_throughout`):

* the queue holds no effect twice, and exactly those that are flagged (`Graph.Scheduled`);
* where a write or the making of an effect returns to code that no effect runs, nothing waits, no
  flush is under way, every active effect has the body with which it was made, and every stopped one
  has none (`Resting`).

Between two points a flush may mark itself and take effects from the queue; apart from that, each
operation and each body starts where the point before it has left the graph.

Where the effects and their bodies are is kept by single steps (`InPlace`). The step that has to be
seen is the end of a body: the body that goes back was taken out when the effect began, at a time
when the effect was not running, so it is the one the effect was made with, and not the gap that a
run within the run finds. Whether a flush is under way depends on where code stands, and not only on
what has happened; it is shown along the rules (`Meaning.Reaches.cleared`).
-/

namespace LiveMarkup

variable {V R W Q : Type} {A : Q → Type} {α : Type}

/-! ## The queue and its flags -/

namespace Graph

/-- Whether the queue holds no effect twice, and exactly the effects that are flagged. -/
structure Scheduled (g : Graph V R) : Prop where
  nodup : g.queue.Nodup
  queued_iff : ∀ e, (g.effect e).queued = true ↔ e ∈ g.queue

namespace Scheduled

variable {g g' : Graph V R}

theorem empty : (empty : Graph V R).Scheduled where
  nodup := List.nodup_nil
  queued_iff e := by
    rw [effect_of_not_lt (Nat.not_lt_zero _)]
    exact iff_of_false Bool.noConfusion List.not_mem_nil

/-- A step that queues nobody and takes nobody from the queue. -/
theorem keep (h : g.Scheduled) (hqueue : g'.queue = g.queue)
    (hqueued : ∀ e, (g'.effect e).queued = (g.effect e).queued) : g'.Scheduled where
  nodup := hqueue ▸ h.nodup
  queued_iff e := by
    rw [hqueued, hqueue]
    exact h.queued_iff e

/-- Queuing an effect that exists. One that does not exist could not be flagged. -/
theorem enqueue (h : g.Scheduled) {e : EffectId} (he : e.index < g.effects.size) :
    (g.enqueue e).Scheduled := by
  unfold Graph.enqueue
  split
  · exact h
  · rename_i hnot
    have hnew : e ∉ g.queue := fun hmem ↦ hnot ((h.queued_iff e).mpr hmem)
    refine ⟨List.nodup_cons.mpr ⟨hnew, h.nodup⟩, fun e' ↦ ?_⟩
    rw [effect_of_modify g _ e (fun cell ↦ { cell with queued := true }) rfl, List.mem_cons]
    by_cases hsame : e' = e
    · rw [if_pos ⟨hsame, he⟩]
      exact iff_of_true rfl (.inl hsame)
    · rw [if_neg fun hc ↦ hsame hc.1, h.queued_iff]
      exact (or_iff_right hsame).symm

theorem foldl_enqueue (h : g.Scheduled) {es : List EffectId}
    (hes : ∀ e ∈ es, e.index < g.effects.size) : (es.foldl Graph.enqueue g).Scheduled := by
  induction es generalizing g with
  | nil => exact h
  | cons e es ih =>
    obtain ⟨he, hes⟩ := List.forall_mem_cons.mp hes
    refine ih (h.enqueue he) fun e' he' ↦ ?_
    rw [size_enqueue]
    exact hes e' he'

theorem write [Inhabited V] (h : g.Scheduled) {s : SignalId}
    (hs : ∀ e ∈ (g.signal s).subscribers, e.index < g.effects.size) (v : V) :
    (g.write s v).Scheduled := by
  have hvalue : Scheduled { g with signals := g.signals.modify s.index fun _ ↦
      ⟨v, g.activeSubscribers s⟩ } := h.keep rfl fun _ ↦ rfl
  exact hvalue.foldl_enqueue fun e he ↦ hs e (List.mem_filter.mp he).1

theorem dequeue {e : EffectId} (h : g.Scheduled) (hd : g.dequeue? = some (e, g')) :
    g'.Scheduled := by
  have hqueue : g.queue = e :: g'.queue := (dequeue?_eq_some hd).1
  obtain ⟨hgone, hrest⟩ := List.nodup_cons.mp (hqueue ▸ h.nodup)
  refine ⟨hrest, fun e' ↦ ?_⟩
  rw [effect_dequeue hd]
  by_cases hsame : e' = e
  · rw [if_pos hsame, hsame]
    exact iff_of_false Bool.noConfusion hgone
  · rw [if_neg hsame, h.queued_iff, hqueue, List.mem_cons]
    exact or_iff_right hsame

theorem newEffect (h : g.Scheduled) (b : R) : (g.newEffect b).2.Scheduled := by
  refine h.keep rfl fun e ↦ ?_
  rw [effect_newEffect]
  split
  · rename_i he
    have hmissing : g.effect (g.newEffect b).1 = default := effect_of_not_lt (Nat.lt_irrefl _)
    rw [he, hmissing]
    rfl
  · rfl

theorem queued_eq_false (h : g.Scheduled) (hqueue : g.queue = []) (e : EffectId) :
    (g.effect e).queued = false := by
  rw [Bool.eq_false_iff]
  intro he
  have hmem := (h.queued_iff e).mp he
  rw [hqueue] at hmem
  exact List.not_mem_nil hmem

end Scheduled

end Graph

/-! ## The body an effect was made with -/

/-- The body of an effect where it is made. -/
def Point.registeredBody? (n : Point V R) (e : EffectId) : Option R :=
  match n.what with
  | .created e' => if e' = e then (n.graph.effect e).body else none
  | _ => none

namespace History

/-- The body with which an effect was made in a history. -/
def registeredBody? (τ : History V R) (e : EffectId) : Option R :=
  τ.findSome? (Point.registeredBody? · e)

theorem registeredBody?_append (τ τ' : History V R) (e : EffectId) :
    registeredBody? (τ ++ τ') e = (registeredBody? τ e).or (registeredBody? τ' e) :=
  List.findSome?_append

/-- What has happened besides makes no difference. -/
theorem registeredBody?_concat_of_none (τ : History V R) {n : Point V R} {e : EffectId}
    (hn : n.registeredBody? e = none) : registeredBody? (τ ++ [n]) e = registeredBody? τ e := by
  rw [registeredBody?_append, registeredBody?, registeredBody?, List.findSome?_cons, hn]
  exact Option.or_none

theorem registeredBody?_append_of_some {τ : History V R} {e : EffectId} {b : R}
    (h : registeredBody? τ e = some b) (τ' : History V R) :
    registeredBody? (τ ++ τ') e = some b := by
  rw [registeredBody?_append, h]
  rfl

end History

/-! ## What single steps keep -/

variable [Inhabited V]

/-- Whether the queue is in order, and the bodies are where they belong: an effect lacks its body if
it was stopped or runs, and otherwise has the one it was made with. -/
structure InPlace (past : History V R) (g : Graph V R) : Prop where
  tracked : Tracked past g
  scheduled : g.Scheduled
  running : ∀ e ∈ past.running [], (g.effect e).body = none
  stopped : ∀ e, g.isActive e = false → (g.effect e).body = none
  waiting : ∀ e, g.isActive e = true → e ∉ past.running [] → (g.effect e).body.isSome = true
  body : ∀ e b, (g.effect e).body = some b → past.registeredBody? e = some b
  registered_lt : ∀ e b, past.registeredBody? e = some b → e.index < g.effects.size

namespace InPlace

variable {past past' : History V R} {g g' : Graph V R}

theorem empty : InPlace ([] : History V R) Graph.empty where
  tracked := .empty
  scheduled := .empty
  running _ h := absurd h List.not_mem_nil
  stopped e _ := by
    rw [Graph.effect_of_not_lt (Nat.not_lt_zero _)]
    rfl
  waiting _ ha := Bool.noConfusion ha
  body e b hb := by
    rw [Graph.effect_of_not_lt (Nat.not_lt_zero _)] at hb
    exact absurd hb.symm (Option.some_ne_none b)
  registered_lt _ b hb := absurd hb.symm (Option.some_ne_none b)

/-- A step at which no effect is made, stopped, begins or ends. -/
theorem keep (h : InPlace past g) (htracked : Tracked past' g') (hscheduled : g'.Scheduled)
    (hrunning : past'.running [] = past.running [])
    (hregistered : ∀ e, past'.registeredBody? e = past.registeredBody? e)
    (hsize : g'.effects.size = g.effects.size)
    (hbody : ∀ e, (g'.effect e).body = (g.effect e).body)
    (hactive : ∀ e, g'.isActive e = g.isActive e) : InPlace past' g' where
  tracked := htracked
  scheduled := hscheduled
  running e he := by
    rw [hbody]
    exact h.running e (hrunning ▸ he)
  stopped e he := by
    rw [hbody]
    exact h.stopped e ((hactive e).symm.trans he)
  waiting e he hnot := by
    rw [hbody]
    exact h.waiting e ((hactive e).symm.trans he) (hrunning ▸ hnot)
  body e b hb := by
    rw [hregistered]
    exact h.body e b ((hbody e).symm.trans hb)
  registered_lt e b hb := by
    rw [hsize]
    exact h.registered_lt e b ((hregistered e).symm.trans hb)

/-- Something has happened besides, and the effects are as before. -/
theorem note (h : InPlace past g) {n : Point V R} (htracked : Tracked (past ++ [n]) g')
    (hscheduled : g'.Scheduled) (hrunning : ∀ stack, n.what.running stack = stack)
    (hregistered : ∀ e, n.registeredBody? e = none) (hsize : g'.effects.size = g.effects.size)
    (hbody : ∀ e, (g'.effect e).body = (g.effect e).body)
    (hactive : ∀ e, g'.isActive e = g.isActive e) : InPlace (past ++ [n]) g' := by
  refine h.keep htracked hscheduled ?_ (fun e ↦ ?_) hsize hbody hactive
  · rw [History.running_append]
    exact hrunning _
  · exact past.registeredBody?_concat_of_none (hregistered e)

/-- Where nothing of the effects has changed. -/
theorem noteSame (h : InPlace past g) {n : Point V R} (htracked : Tracked (past ++ [n]) g')
    (hrunning : ∀ stack, n.what.running stack = stack)
    (hregistered : ∀ e, n.registeredBody? e = none) (hqueue : g'.queue = g.queue)
    (heffects : g'.effects = g.effects) : InPlace (past ++ [n]) g' := by
  have heffect : ∀ e, g'.effect e = g.effect e := by
    intro e
    rw [Graph.effect, heffects, Graph.effect]
  exact h.note htracked
    (h.scheduled.keep hqueue fun e ↦ congrArg Effect.queued (heffect e)) hrunning hregistered
    (congrArg Array.size heffects) (fun e ↦ congrArg Effect.body (heffect e))
    fun e ↦ congrArg Effect.active (heffect e)

/-- An effect is made. It waits for its first run, with its body. -/
theorem newEffect (h : InPlace past g) (b : R) :
    InPlace (past ++ [⟨.created (g.newEffect b).1, (g.newEffect b).2⟩]) (g.newEffect b).2 := by
  have hrunning : History.running []
      (past ++ [⟨.created (g.newEffect b).1, (g.newEffect b).2⟩]) = past.running [] :=
    History.running_append ..
  have hfresh : past.registeredBody? (g.newEffect b).1 = none := by
    rw [Option.eq_none_iff_forall_ne_some]
    exact fun b' hb' ↦ Nat.lt_irrefl _ (h.registered_lt _ b' hb')
  have hself : Point.registeredBody? ⟨.created (g.newEffect b).1, (g.newEffect b).2⟩
      (g.newEffect b).1 = some b :=
    (if_pos rfl).trans (congrArg Effect.body (g.effect_newEffect_self b))
  have hother : ∀ e, e ≠ (g.newEffect b).1 →
      History.registeredBody? (past ++ [⟨.created (g.newEffect b).1, (g.newEffect b).2⟩]) e =
        past.registeredBody? e :=
    fun e he ↦ past.registeredBody?_concat_of_none (if_neg he.symm)
  constructor
  case tracked => exact Tracked.invariant.newEffect _ _ b h.tracked
  case scheduled => exact h.scheduled.newEffect b
  case running =>
    intro e he
    rw [hrunning] at he
    rw [Graph.effect_newEffect, if_neg]
    · exact h.running e he
    · rintro rfl
      exact Nat.lt_irrefl _ (h.tracked.running_lt _ he)
  case stopped =>
    intro e he
    rw [Graph.isActive, Graph.effect_newEffect] at he
    rw [Graph.effect_newEffect]
    split at he
    · contradiction
    · rename_i hne
      rw [if_neg hne]
      exact h.stopped e he
  case waiting =>
    intro e he hnot
    rw [hrunning] at hnot
    rw [Graph.isActive, Graph.effect_newEffect] at he
    rw [Graph.effect_newEffect]
    split at he
    · rename_i hsame
      rw [if_pos hsame]
      rfl
    · rename_i hne
      rw [if_neg hne]
      exact h.waiting e he hnot
  case body =>
    intro e b' hb'
    rw [Graph.effect_newEffect] at hb'
    split at hb'
    · rename_i hsame
      rw [hsame, History.registeredBody?_append, hfresh, Option.none_or,
        History.registeredBody?, List.findSome?_cons, hself]
      exact hb'
    · rename_i hne
      rw [hother e hne]
      exact h.body e b' hb'
  case registered_lt =>
    intro e b' hb'
    rw [Graph.size_newEffect]
    by_cases hsame : e = (g.newEffect b).1
    · rw [hsame]
      exact Nat.lt_succ_self _
    · rw [hother e hsame] at hb'
      exact Nat.lt_succ_of_lt (h.registered_lt e b' hb')

/-- An effect is stopped, and gives up its body if it has one. -/
theorem stop (h : InPlace past g) {e : EffectId} (he : e.index < g.effects.size) :
    InPlace (past ++ [⟨.stopped e, g.stop e⟩]) (g.stop e) := by
  have hrunning : History.running [] (past ++ [⟨.stopped e, g.stop e⟩]) = past.running [] :=
    History.running_append ..
  have hregistered : ∀ e', History.registeredBody? (past ++ [⟨.stopped e, g.stop e⟩]) e' =
      past.registeredBody? e' := fun e' ↦ past.registeredBody?_concat_of_none rfl
  constructor
  case tracked => exact Tracked.invariant.stop _ _ e he h.tracked
  case scheduled => exact h.scheduled.keep rfl fun e' ↦ Graph.queued_stop g e e'
  case running =>
    intro e' he'
    rw [Graph.effect_stop]
    split
    · rfl
    · exact h.running e' (hrunning ▸ he')
  case stopped =>
    intro e' he'
    rw [Graph.isActive, Graph.effect_stop] at he'
    rw [Graph.effect_stop]
    split
    · rfl
    · rename_i hne
      rw [if_neg hne] at he'
      exact h.stopped e' he'
  case waiting =>
    intro e' he' hnot
    have hne : e' ≠ e := by
      rintro rfl
      rw [Graph.isActive, Graph.effect_stop, if_pos rfl] at he'
      contradiction
    rw [Graph.effect_stop, if_neg hne]
    exact h.waiting e' (Graph.isActive_of_stop he') (hrunning ▸ hnot)
  case body =>
    intro e' b hb
    rw [Graph.effect_stop] at hb
    split at hb
    · contradiction
    · rw [hregistered]
      exact h.body e' b hb
  case registered_lt =>
    intro e' b hb
    rw [Graph.size_stop]
    exact h.registered_lt e' b ((hregistered e').symm.trans hb)

/-- An effect begins to run, and its body is taken out. -/
theorem beginRun (h : InPlace past g) {e : EffectId} {b : R} (ha : g.isActive e = true)
    (hb : (g.effect e).body = some b) :
    InPlace (past ++ [⟨.began e, g.beginRun e⟩]) (g.beginRun e) := by
  have hrunning : History.running [] (past ++ [⟨.began e, g.beginRun e⟩]) =
      e :: past.running [] := History.running_append ..
  have hregistered : ∀ e', History.registeredBody? (past ++ [⟨.began e, g.beginRun e⟩]) e' =
      past.registeredBody? e' := fun e' ↦ past.registeredBody?_concat_of_none rfl
  constructor
  case tracked => exact Tracked.invariant.began _ _ e b ha hb h.tracked
  case scheduled => exact h.scheduled.keep rfl fun e' ↦ Graph.queued_beginRun g e e'
  case running =>
    intro e' he'
    rw [Graph.effect_beginRun]
    split
    · rfl
    · rename_i hne
      rw [hrunning] at he'
      exact h.running e' ((List.mem_cons.mp he').resolve_left hne)
  case stopped =>
    intro e' he'
    rw [Graph.isActive_beginRun] at he'
    rw [Graph.effect_beginRun]
    split
    · rfl
    · exact h.stopped e' he'
  case waiting =>
    intro e' he' hnot
    rw [Graph.isActive_beginRun] at he'
    rw [hrunning, List.mem_cons, not_or] at hnot
    rw [Graph.effect_beginRun, if_neg hnot.1]
    exact h.waiting e' he' hnot.2
  case body =>
    intro e' b' hb'
    rw [Graph.effect_beginRun] at hb'
    split at hb'
    · contradiction
    · rw [hregistered]
      exact h.body e' b' hb'
  case registered_lt =>
    intro e' b' hb'
    rw [Graph.size_beginRun]
    exact h.registered_lt e' b' ((hregistered e').symm.trans hb')

/-- A body ends, and goes back unless the effect was stopped. The effect did not run before, since
it had its body; so nobody but this run has kept it aside. -/
theorem endRun {e : EffectId} {b : R} {τ : History V R} (h : InPlace past g)
    (ha : g.isActive e = true) (hb : (g.effect e).body = some b) (hbalanced : τ.Balanced)
    (hran : InPlace (past ++ ⟨.began e, g.beginRun e⟩ :: τ) g') :
    InPlace (past ++ ⟨.began e, g.beginRun e⟩ ::
        (τ ++ [⟨.ended e, g'.endRun e g.current (some b)⟩]))
      (g'.endRun e g.current (some b)) := by
  have hnot : e ∉ past.running [] := by
    intro he
    rw [h.running e he] at hb
    exact absurd hb.symm (Option.some_ne_none b)
  have hinner : History.running [] (past ++ ⟨.began e, g.beginRun e⟩ :: τ) =
      e :: past.running [] := by
    rw [History.running_append, History.running_cons, hbalanced]
    rfl
  have hrunning : History.running [] (past ++ ⟨.began e, g.beginRun e⟩ ::
      (τ ++ [⟨.ended e, g'.endRun e g.current (some b)⟩])) = past.running [] := by
    rw [History.running_append]
    exact hbalanced.bracket e _ _ _
  have hregistered : ∀ e', History.registeredBody? (past ++ ⟨.began e, g.beginRun e⟩ ::
      (τ ++ [⟨.ended e, g'.endRun e g.current (some b)⟩])) e' =
        History.registeredBody? (past ++ ⟨.began e, g.beginRun e⟩ :: τ) e' := by
    intro e'
    rw [← List.cons_append, ← List.append_assoc]
    exact History.registeredBody?_concat_of_none _ rfl
  constructor
  case tracked =>
    exact Tracked.invariant.ended _ _ e b τ g' ha hb hbalanced h.tracked hran.tracked
  case scheduled =>
    exact hran.scheduled.keep (Graph.queue_endRun ..) fun e' ↦ Graph.queued_endRun g' e _ _ e'
  case running =>
    intro e' he'
    rw [hrunning] at he'
    have hne : e' ≠ e := fun hsame ↦ hnot (hsame ▸ he')
    rw [Graph.effect_endRun, if_neg fun hc ↦ hne hc.1]
    exact hran.running e' (hinner ▸ List.mem_cons_of_mem e he')
  case stopped =>
    intro e' he'
    rw [Graph.isActive_endRun] at he'
    rw [Graph.effect_endRun, if_neg]
    · exact hran.stopped e' he'
    · rintro ⟨rfl, ha'⟩
      exact Bool.noConfusion (he'.symm.trans ha')
  case waiting =>
    intro e' he' hout
    rw [Graph.isActive_endRun] at he'
    rw [hrunning] at hout
    rw [Graph.effect_endRun]
    split
    · rfl
    · rename_i hne
      have hne : e' ≠ e := fun hsame ↦ hne ⟨hsame, hsame ▸ he'⟩
      refine hran.waiting e' he' ?_
      rw [hinner, List.mem_cons, not_or]
      exact ⟨hne, hout⟩
  case body =>
    intro e' b' hb'
    rw [Graph.effect_endRun] at hb'
    rw [hregistered]
    split at hb'
    · rename_i hsame
      rw [hsame.1]
      obtain rfl := Option.some.inj hb'
      exact History.registeredBody?_append_of_some (h.body e b hb) _
    · exact hran.body e' b' hb'
  case registered_lt =>
    intro e' b' hb'
    rw [Graph.size_endRun]
    exact hran.registered_lt e' b' ((hregistered e').symm.trans hb')

end InPlace

/-- Every step keeps the queue in order and the bodies where they belong. -/
theorem InPlace.invariant : History.Invariant (InPlace (V := V) (R := R)) where
  looked _ _ h :=
    h.noteSame (Tracked.invariant.looked _ _ h.tracked) (fun _ ↦ rfl) (fun _ ↦ rfl) rfl rfl
  changed _ _ h :=
    h.noteSame (Tracked.invariant.changed _ _ h.tracked) (fun _ ↦ rfl) (fun _ ↦ rfl) rfl rfl
  newSignal _ _ v h :=
    h.noteSame (Tracked.invariant.newSignal _ _ v h.tracked) (fun _ ↦ rfl) (fun _ ↦ rfl) rfl rfl
  read _ g s hs h :=
    h.noteSame (Tracked.invariant.read _ _ s hs h.tracked) (fun _ ↦ rfl) (fun _ ↦ rfl)
      (Graph.queue_track g s) (Graph.effects_track g s)
  write _ g s v h :=
    h.note (Tracked.invariant.write _ _ s v h.tracked)
      (h.scheduled.write (h.tracked.subscriber_lt s) v) (fun _ ↦ rfl) (fun _ ↦ rfl)
      (Graph.size_write g s v) (Graph.body_write g s v) (Graph.isActive_write g s v)
  flush _ _ hf h :=
    h.keep (Tracked.invariant.flush _ _ hf h.tracked) (h.scheduled.keep rfl fun _ ↦ rfl) rfl
      (fun _ ↦ rfl) rfl (fun _ ↦ rfl) fun _ ↦ rfl
  dequeue _ _ e _ hd h :=
    h.keep (Tracked.invariant.dequeue _ _ e _ hd h.tracked) (h.scheduled.dequeue hd) rfl
      (fun _ ↦ rfl) (Graph.size_dequeue hd) (Graph.body_dequeue hd) (Graph.isActive_dequeue hd)
  settled _ _ hq h :=
    h.noteSame (Tracked.invariant.settled _ _ hq h.tracked) (fun _ ↦ rfl) (fun _ ↦ rfl) rfl rfl
  newEffect _ _ b h := h.newEffect b
  registered _ _ e h :=
    h.noteSame (Tracked.invariant.registered _ _ e h.tracked) (fun _ ↦ rfl) (fun _ ↦ rfl) rfl rfl
  stop _ _ _ he h := h.stop he
  began _ _ _ _ ha hb h := h.beginRun ha hb
  ended _ _ _ _ _ _ ha hb hbalanced h hran := h.endRun ha hb hbalanced hran

/-! ## Where code returns -/

/-- Whether a body has ended. -/
def Occurrence.isEnd : Occurrence V → Bool
  | .ended _ => true
  | _ => false

/-- Whether a write, with its flush, or the making of an effect, with its first run, is over. -/
def Occurrence.returns : Occurrence V → Bool
  | .settled | .registered _ => true
  | _ => false

/-- How the queue stands where no effect runs: what has just been done was done outside of any
flush, and if it was a write or the making of an effect that is over then nothing waits. Where a
body has ended the flush that has run it may go on. -/
def Cleared (past : History V R) (g : Graph V R) : Prop :=
  ∀ n, past.getLast? = some n → past.running [] = [] →
    (n.what.isEnd = false → g.flushing = false) ∧ (n.what.returns = true → g.queue = [])

omit [Inhabited V] in
theorem cleared_concat {past : History V R} {n : Point V R} {g : Graph V R}
    (h : (past ++ [n]).running [] = [] →
      (n.what.isEnd = false → g.flushing = false) ∧ (n.what.returns = true → g.queue = [])) :
    Cleared (past ++ [n]) g := by
  intro n' hn' hrunning
  rw [List.getLast?_concat] at hn'
  obtain rfl := Option.some.inj hn'
  exact h hrunning

/-- Whether a job finds no flush under way where it has to: a script that no effect runs does, while
an effect may be run, and the queue is worked off, within a flush. -/
def Job.Ready (past : History V R) (g : Graph V R) : Job V R W Q A α → Prop
  | .script _ => past.running [] = [] → g.flushing = false
  | .effect .. | .drain .. => True

namespace Graph

variable {g g' : Graph V R}

omit [Inhabited V] in
theorem Drained.keep (h : g.Drained) (hflushing : g'.flushing = g.flushing)
    (hqueue : g'.queue = g.queue) : g'.Drained := fun hf ↦
  hqueue.trans (h (hflushing.symm.trans hf))

omit [Inhabited V] in
theorem drained_of_flushing (h : g.flushing = true) : g.Drained := fun hf ↦
  Bool.noConfusion (h.symm.trans hf)

omit [Inhabited V] in
/-- An effect is taken from the queue only while the queue is worked off. -/
theorem Drained.dequeue (h : g.Drained) {e : EffectId} (hd : g.dequeue? = some (e, g')) :
    g'.Drained := by
  intro hf
  have hqueue := h ((flushing_dequeue hd).symm.trans hf)
  rw [(dequeue?_eq_some hd).1] at hqueue
  exact absurd hqueue (List.cons_ne_nil _ _)

end Graph

/-- Whether code leaves the flush under way that it has found, if any, and leaves nothing waiting
outside of one. -/
structure Graph.Clears (g g' : Graph V R) : Prop where
  flushing : g'.flushing = g.flushing
  drained : g.Drained → g'.Drained

omit [Inhabited V] in
theorem Graph.Clears.trans {g g' g'' : Graph V R} (h : g.Clears g') (h' : g'.Clears g'') :
    g.Clears g'' where
  flushing := h'.flushing.trans h.flushing
  drained hg := h'.drained (h.drained hg)

omit [Inhabited V] in
theorem Graph.Clears.dequeue {g g' : Graph V R} {e : EffectId} (h : g.dequeue? = some (e, g')) :
    g.Clears g' where
  flushing := Graph.flushing_dequeue h
  drained hg := hg.dequeue h

theorem Script.Step.clears {p p' : Script V R W Q A α} {st st' : State V R W} {τ : History V R}
    (h : p.Step st τ p' st') : st.graph.Clears st'.graph := by
  cases h with
  | look | change | newSignal | stop | readNothing | stopNothing => exact ⟨rfl, id⟩
  | read s =>
    have hflushing := Graph.flushing_track st.graph s
    exact ⟨hflushing, fun hst ↦ hst.keep hflushing (Graph.queue_track st.graph s)⟩
  | write s v _ _ hf =>
    have hflushing := Graph.flushing_write st.graph s v
    exact ⟨hflushing, fun _ ↦ Graph.drained_of_flushing (hflushing.trans hf)⟩

namespace Meaning

variable {m : Meaning V R W Q A} {j : Job V R W Q A α} {st st' : State V R W}
  {τ past : History V R} {a : α}

theorem Runs.clears (h : m.Runs j st τ a st') : st.graph.Clears st'.graph := by
  induction h with
  | done | inactive | bodiless | drained => exact ⟨rfl, id⟩
  | step hstep _ ih => exact hstep.clears.trans ih
  | write hf hdrain _ _ ih =>
    have hqueue := hdrain.queue_of_drain rfl
    exact ⟨ih.flushing.trans hf.symm, fun _ ↦ ih.drained fun _ ↦ hqueue⟩
  | effect _ _ ih₁ ih₂ => exact ⟨ih₂.flushing.trans ih₁.flushing, (ih₁.trans ih₂).drained⟩
  | call _ _ ih₁ ih₂ => exact ih₁.trans ih₂
  | body _ _ _ ih =>
    exact ⟨(Graph.flushing_endRun ..).trans ih.flushing, fun hst ↦
      (ih.drained hst).keep (Graph.flushing_endRun ..) (Graph.queue_endRun ..)⟩
  | drain hd _ _ ih₁ ih₂ => exact (Graph.Clears.dequeue hd).trans (ih₁.trans ih₂)

end Meaning

open History

omit [Inhabited V] in
/-- What is balanced leaves the same bodies running. -/
theorem History.Balanced.outermost {past τ : History V R} (h : τ.Balanced)
    (hout : (past ++ τ).running [] = []) : past.running [] = [] := by
  rwa [running_append, h] at hout

omit [Inhabited V] in
/-- So does a point at which no body begins or ends. -/
theorem History.outermost_of_concat {past : History V R} {n : Point V R}
    (hout : (past ++ [n]).running [] = []) (hn : ∀ stack, n.what.running stack = stack) :
    past.running [] = [] := by
  rwa [running_append, running_cons, running_nil, hn] at hout

omit [Inhabited V] in
/-- A step of outermost code that is over, or not, outside of any flush. -/
theorem Cleared.of_idle {past : History V R} {n : Point V R} {g : Graph V R}
    (hrunning : ∀ stack, n.what.running stack = stack)
    (hready : past.running [] = [] → g.flushing = false)
    (hreturns : n.what.returns = true → g.flushing = false → g.queue = []) :
    Cleared (past ++ [n]) g := by
  refine cleared_concat fun hout ↦ ?_
  have hf := hready (outermost_of_concat hout hrunning)
  exact ⟨fun _ ↦ hf, fun hn ↦ hreturns hn hf⟩

omit [Inhabited V] in
/-- Where an effect begins to run, no outermost code is left. -/
theorem Cleared.began (past : History V R) (e : EffectId) (g : Graph V R) :
    Cleared (past ++ [⟨.began e, g⟩]) g := by
  refine cleared_concat fun hout ↦ ?_
  rw [running_append] at hout
  exact absurd hout (List.cons_ne_nil _ _)

omit [Inhabited V] in
theorem Cleared.ended (past : History V R) (e : EffectId) (g : Graph V R) :
    Cleared (past ++ [⟨.ended e, g⟩]) g :=
  cleared_concat fun _ ↦ ⟨fun h ↦ Bool.noConfusion h, fun h ↦ Bool.noConfusion h⟩

theorem Script.Step.cleared {p p' : Script V R W Q A α} {st st' : State V R W}
    {τ past : History V R} (h : p.Step st τ p' st') (hready : (Job.script p).Ready past st.graph) :
    Throughout Cleared past τ := by
  have hready' := fun hout ↦ h.clears.flushing.trans (hready hout)
  cases h with
  | readNothing | stopNothing => exact trivial
  | look | change | newSignal | read | write | stop =>
    exact ⟨.of_idle (fun _ ↦ rfl) hready' fun hn ↦ Bool.noConfusion hn, trivial⟩

namespace Cleared

variable {past τ τ' : History V R} {g g' : Graph V R}

/-- A write outside of any flush, with the flush it brings about and what comes after it. -/
theorem write {s : SignalId} {v : V} (hf : g.flushing = false) (hqueue : g'.queue = [])
    (hflush : Throughout Cleared (past ++ [⟨.wrote s v, g.write s v⟩]) τ)
    (hrest : Throughout Cleared (past ++ [⟨.wrote s v, g.write s v⟩] ++ τ ++
      [⟨.settled, { g' with flushing := false }⟩]) τ') :
    Throughout Cleared past
      (⟨.wrote s v, g.write s v⟩ :: (τ ++ ⟨.settled, { g' with flushing := false }⟩ :: τ')) := by
  have hwrote : Cleared (past ++ [⟨.wrote s v, g.write s v⟩]) (g.write s v) :=
    .of_idle (fun _ ↦ rfl) (fun _ ↦ (Graph.flushing_write ..).trans hf) fun hn ↦ Bool.noConfusion hn
  exact ⟨hwrote, hflush.append ⟨.of_idle (fun _ ↦ rfl) (fun _ ↦ rfl) fun _ _ ↦ hqueue, hrest⟩⟩

omit [Inhabited V] in
/-- The making of an effect, with its first run and what comes after it. -/
theorem effect {b : R} (hready : past.running [] = [] → g.flushing = false)
    (hbalanced : τ.Balanced) (hclears : (g.newEffect b).2.Clears g') (hdrained : g.Drained)
    (hfirst : Throughout Cleared (past ++ [⟨.created (g.newEffect b).1, (g.newEffect b).2⟩]) τ)
    (hrest : (running [] (past ++ [⟨.created (g.newEffect b).1, (g.newEffect b).2⟩] ++ τ ++
        [⟨.registered (g.newEffect b).1, g'⟩]) = [] → g'.flushing = false) →
      Throughout Cleared (past ++ [⟨.created (g.newEffect b).1, (g.newEffect b).2⟩] ++ τ ++
        [⟨.registered (g.newEffect b).1, g'⟩]) τ') :
    Throughout Cleared past (⟨.created (g.newEffect b).1, (g.newEffect b).2⟩ ::
      (τ ++ ⟨.registered (g.newEffect b).1, g'⟩ :: τ')) := by
  have hcreated : Cleared (past ++ [⟨.created (g.newEffect b).1, (g.newEffect b).2⟩])
      (g.newEffect b).2 :=
    .of_idle (fun _ ↦ rfl) hready fun hn ↦ Bool.noConfusion hn
  have hready' : running [] (past ++ [⟨.created (g.newEffect b).1, (g.newEffect b).2⟩] ++ τ) = [] →
      g'.flushing = false := fun hout ↦
    hclears.flushing.trans (hready (outermost_of_concat (hbalanced.outermost hout) fun _ ↦ rfl))
  exact ⟨hcreated, hfirst.append ⟨.of_idle (fun _ ↦ rfl) hready' fun _ ↦ hclears.drained hdrained,
    hrest fun hout ↦ hready' (outermost_of_concat hout fun _ ↦ rfl)⟩⟩

end Cleared

namespace Meaning

variable {m : Meaning V R W Q A} {j : Job V R W Q A α} {st st' : State V R W}
  {τ past : History V R} {a : α}

/-- Along the rules, the history of any job is cleared that begins where nothing waits outside of a
flush. -/
theorem Runs.cleared (h : m.Runs j st τ a st') (hdrained : st.graph.Drained)
    (hready : j.Ready past st.graph) : Throughout Cleared past τ := by
  induction h generalizing past with
  | done | inactive | bodiless | drained => exact trivial
  | step hstep _ ih =>
    have hclears := hstep.clears
    exact (hstep.cleared hready).append (ih (hclears.drained hdrained)
      fun hout ↦ hclears.flushing.trans (hready (hstep.balanced.outermost hout)))
  | write hf hdrain _ ih₁ ih₂ =>
    have hqueue := hdrain.queue_of_drain rfl
    exact Cleared.write hf hqueue (ih₁ (Graph.drained_of_flushing rfl) trivial)
      (ih₂ (fun _ ↦ hqueue) fun _ ↦ rfl)
  | effect hfirst _ ih₁ ih₂ =>
    exact Cleared.effect hready hfirst.balanced hfirst.clears hdrained (ih₁ hdrained trivial)
      (ih₂ (hfirst.clears.drained hdrained))
  | call hanswer _ ih₁ ih₂ =>
    have hclears := hanswer.clears
    exact (ih₁ hdrained hready).append (ih₂ (hclears.drained hdrained)
      fun hout ↦ hclears.flushing.trans (hready (hanswer.balanced.outermost hout)))
  | body _ _ _ ih =>
    refine ⟨.began _ _ _, (ih hdrained fun hout ↦ ?_).append ⟨.ended _ _ _, trivial⟩⟩
    rw [running_append] at hout
    exact absurd hout (List.cons_ne_nil _ _)
  | drain hd hfirst _ ih₁ ih₂ =>
    have hst₁ := hdrained.dequeue hd
    exact (ih₁ hst₁ trivial).append (ih₂ (hfirst.clears.drained hst₁) trivial)

/-- And so is that of a job that is carried out in part. -/
theorem Reaches.cleared (h : m.Reaches j st τ) (hdrained : st.graph.Drained)
    (hready : j.Ready past st.graph) : Throughout Cleared past τ := by
  induction h generalizing past with
  | start => exact trivial
  | all hruns => exact hruns.cleared hdrained hready
  | step hstep _ ih =>
    have hclears := hstep.clears
    exact (hstep.cleared hready).append (ih (hclears.drained hdrained)
      fun hout ↦ hclears.flushing.trans (hready (hstep.balanced.outermost hout)))
  | flush hf _ ih =>
    exact ⟨.of_idle (fun _ ↦ rfl) (fun _ ↦ (Graph.flushing_write ..).trans hf)
      fun hn ↦ Bool.noConfusion hn, ih (Graph.drained_of_flushing rfl) trivial⟩
  | write hf hdrain _ ih =>
    have hqueue := hdrain.queue_of_drain rfl
    exact Cleared.write hf hqueue (hdrain.cleared (Graph.drained_of_flushing rfl) trivial)
      (ih (fun _ ↦ hqueue) fun _ ↦ rfl)
  | first _ ih =>
    exact ⟨.of_idle (fun _ ↦ rfl) hready fun hn ↦ Bool.noConfusion hn, ih hdrained trivial⟩
  | effect hfirst _ ih =>
    exact Cleared.effect hready hfirst.balanced hfirst.clears hdrained
      (hfirst.cleared hdrained trivial) (ih (hfirst.clears.drained hdrained))
  | answer _ ih => exact ih hdrained hready
  | call hanswer _ ih =>
    have hclears := hanswer.clears
    exact (hanswer.cleared hdrained hready).append (ih (hclears.drained hdrained)
      fun hout ↦ hclears.flushing.trans (hready (hanswer.balanced.outermost hout)))
  | body _ _ _ ih =>
    refine ⟨.began _ _ _, ih hdrained fun hout ↦ ?_⟩
    rw [running_append] at hout
    exact absurd hout (List.cons_ne_nil _ _)
  | next hd _ ih => exact ih (hdrained.dequeue hd) trivial
  | drain hd hfirst _ ih =>
    have hst₁ := hdrained.dequeue hd
    exact (hfirst.cleared hst₁ trivial).append (ih (hfirst.clears.drained hst₁) trivial)

end Meaning

/-! ## The scheduler stays in order -/

/-- Whether nothing waits and no flush is under way, every active effect has the body with which it
was made, and every stopped one has none. -/
structure Resting (past : History V R) (g : Graph V R) : Prop where
  queue : g.queue = []
  queued : ∀ e, (g.effect e).queued = false
  flushing : g.flushing = false
  active : ∀ e, g.isActive e = true →
    ∃ b, (g.effect e).body = some b ∧ past.registeredBody? e = some b
  stopped : ∀ e, g.isActive e = false → (g.effect e).body = none

theorem InPlace.resting {past : History V R} {g : Graph V R} (h : InPlace past g)
    (hout : past.running [] = []) (hflushing : g.flushing = false) (hqueue : g.queue = []) :
    Resting past g where
  queue := hqueue
  queued := h.scheduled.queued_eq_false hqueue
  flushing := hflushing
  active e he := by
    have hnot : e ∉ past.running [] := by
      rw [hout]
      exact List.not_mem_nil
    obtain ⟨b, hb⟩ := Option.isSome_iff_exists.mp (h.waiting e he hnot)
    exact ⟨b, hb, h.body e b hb⟩
  stopped := h.stopped

/-- Whether the scheduler is in order at the last point of a history: the queue and its flags agree;
outermost code acts outside of any flush, so that its writes work off the queue themselves; and
where a write or the making of an effect returns to it, the graph is at rest. -/
structure InOrder (past : History V R) (n : Point V R) : Prop where
  scheduled : n.graph.Scheduled
  outermost : past.running [] = [] → n.what.isEnd = false → n.graph.flushing = false
  returns : past.running [] = [] → n.what.returns = true → Resting past n.graph

omit [Inhabited V] in
theorem Occurrence.isEnd_of_returns {what : Occurrence V} (h : what.returns = true) :
    what.isEnd = false := by
  cases what <;> first | rfl | contradiction

/-- **The scheduler stays in order.** Whatever code runs on a new graph, and whether or not it ends,
with bodies that make effects, stop them and write in turn: it is in order at every point that the
code comes to. When the code has ended, the graph is at rest. -/
theorem Meaning.inOrder_throughout (m : Meaning V R W Q A) (p : Script V R W Q A α) (w : W) :
    (∀ τ, m.Reaches (.script p) ⟨.empty, w⟩ τ →
      ∀ before n after, τ = before ++ n :: after → InOrder (before ++ [n]) n) ∧
    ∀ fuel a st', m.run fuel p ⟨.empty, w⟩ = some (a, st') →
      ∃ τ, m.Runs (.script p) ⟨.empty, w⟩ τ a st' ∧ Resting τ st'.graph := by
  constructor
  · rintro _ hτ before n after rfl
    have hkept : InPlace (before ++ [n]) n.graph := (hτ.throughout InPlace.invariant .empty).point
    have hthroughout : Throughout Cleared [] (before ++ n :: after) :=
      hτ.cleared (fun _ ↦ rfl) fun _ ↦ rfl
    have hcleared : Cleared (before ++ [n]) n.graph := hthroughout.point
    have hlast : (before ++ [n]).getLast? = some n := List.getLast?_concat
    refine ⟨hkept.scheduled, fun hout ↦ (hcleared n hlast hout).1, fun hout hreturns ↦ ?_⟩
    obtain ⟨hflushing, hqueue⟩ := hcleared n hlast hout
    exact hkept.resting hout (hflushing (Occurrence.isEnd_of_returns hreturns)) (hqueue hreturns)
  · intro fuel a st' hrun
    obtain ⟨τ, hτ⟩ := m.exists_fuel_iff.mp ⟨fuel, hrun⟩
    have hkept : InPlace τ st'.graph := (hτ.throughout InPlace.invariant .empty).2
    have hflushing : st'.graph.flushing = false := hτ.clears.flushing
    have hqueue : st'.graph.queue = [] := hτ.clears.drained (fun _ ↦ rfl) hflushing
    exact ⟨τ, hτ, hkept.resting (hτ.balanced []) hflushing hqueue⟩

/-- An effect that reads the first signal and, while it is less than two, writes one more there. -/
def climber : Meaning Nat Unit Unit Empty fun _ ↦ Unit where
  body _ := .read ⟨0⟩ fun v ↦ if v < 2 then .write ⟨0⟩ (v + 1) (.done ()) else .done ()
  call q := nomatch q

/-- Makes the signal and the effect, and sets the signal back. -/
def climb : Script Nat Unit Unit Empty (fun _ ↦ Unit) Unit :=
  .newSignal 0 fun s ↦ .effect () fun _ ↦ .write s 0 (.done ())

/-- The first run writes, and the flush within it finds the effect without its body. The write after
it has the effect run three times. When that is over the effect has its body again. -/
theorem climber_rests : ∃ before n,
    climber.Reaches (.script climb) ⟨.empty, ()⟩ (before ++ [n]) ∧ n.what = .settled ∧
      InOrder (before ++ [n]) n ∧ Resting (before ++ [n]) n.graph ∧
      n.graph.isActive ⟨0⟩ = true ∧ n.graph.value ⟨0⟩ = 2 := by
  have hclimbed : climber.Runs (.script climb) ⟨.empty, ()⟩ _ () _ :=
    .step (.newSignal 0 _ _) (.effect
      (.body rfl rfl (.step (.read ⟨0⟩ _ _ (by decide))
        (.write rfl (.drain rfl (.bodiless rfl rfl) (.drained rfl)) (.done _ _))))
      (.write rfl
        (.drain rfl
          (.body rfl rfl (.step (.read ⟨0⟩ _ _ (by decide))
            (.step (.write _ _ _ _ rfl) (.done _ _))))
          (.drain rfl
            (.body rfl rfl (.step (.read ⟨0⟩ _ _ (by decide))
              (.step (.write _ _ _ _ rfl) (.done _ _))))
            (.drain rfl (.body rfl rfl (.step (.read ⟨0⟩ _ _ (by decide)) (.done _ _)))
              (.drained rfl))))
        (.done _ _)))
  obtain ⟨τ, st', n, hruns, hlast, hwhat, hactive, hvalue⟩ : ∃ τ st' n,
      climber.Runs (.script climb) ⟨.empty, ()⟩ τ () st' ∧ τ.getLast? = some n ∧
        n.what = .settled ∧ n.graph.isActive ⟨0⟩ = true ∧ n.graph.value ⟨0⟩ = 2 :=
    ⟨_, _, _, hclimbed, rfl, rfl, rfl, rfl⟩
  obtain ⟨before, rfl⟩ := List.getLast?_eq_some_iff.mp hlast
  have horder : InOrder (before ++ [n]) n :=
    (Meaning.inOrder_throughout climber climb ()).1 _ (.all hruns) before n [] rfl
  exact ⟨before, n, .all hruns, hwhat, horder,
    horder.returns (hruns.balanced []) (hwhat ▸ rfl), hactive, hvalue⟩

end LiveMarkup
