import Mathlib.Data.List.Induction
import LiveMarkup.Proofs.Reactive.History

/-!
# Who is subscribed

A read counts for the effect whose body is the innermost that runs, and for nobody if none runs.
Effects begin within effects and within flushes, and may be stopped while they run, so who that is
depends on everything that has begun and ended before. The history knows it
(`History.innermost`), and with it who has read a signal (`History.readers`): looking at a value,
reading within an effect that an effect has made, and reading outside of all effects are not reads
of that effect.

The graph keeps the same books with two things only, the current effect and the subscribers of each
signal. They agree with the history at every point that any code comes to
(`Meaning.subscribers_eq_readers`). The step that has to be seen is the end of a body: the graph
gives back the effect it has kept aside, and that is the innermost one because the body's own
history is balanced.
-/

namespace LiveMarkup

variable {V R W Q : Type} {A : Q → Type} {α : Type}

/-! ## Lists of readers -/

/-- A list of effects with one more at its end, unless it is there already. -/
def EffectId.enlist (e : EffectId) (es : List EffectId) : List EffectId :=
  if e ∈ es then es else es ++ [e]

namespace EffectId

variable {e e' : EffectId} {es es' : List EffectId}

theorem mem_enlist (h : e' ∈ e.enlist es) : e' ∈ es ∨ e' = e := by
  rw [enlist] at h
  split at h
  · exact .inl h
  · exact (List.mem_append.mp h).imp_right List.mem_singleton.mp

theorem nodup_enlist (e : EffectId) (h : es.Nodup) : (e.enlist es).Nodup := by
  rw [enlist]
  split
  · exact h
  · rename_i hnew
    refine List.nodup_append.mpr ⟨h, List.pairwise_singleton _ e, ?_⟩
    intro e' he' e'' he'' heq
    rw [heq, List.mem_singleton.mp he''] at he'
    exact hnew he'

/-- Lists that agree on what satisfies a condition still do with one more item. -/
theorem filter_enlist {p : EffectId → Bool} (h : es.filter p = es'.filter p) (e : EffectId) :
    (e.enlist es).filter p = (e.enlist es').filter p := by
  have hsame : p e = true → (e ∈ es ↔ e ∈ es') := by
    intro hp
    have hmem : e ∈ es.filter p ↔ e ∈ es'.filter p := by rw [h]
    simpa only [List.mem_filter, hp, and_true] using hmem
  rw [enlist, enlist]
  split <;> split <;> simp_all [List.filter_append]

end EffectId

/-! ## What the history knows -/

namespace History

/-- The effect whose body is the innermost that runs at the end of a history. -/
def innermost (τ : History V R) : Option EffectId := (running [] τ).head?

/-- What happens in a history, where the bodies of `stack` run at its beginning: each occurrence
with the effect whose body is the innermost that runs when it happens. -/
def acts (stack : List EffectId) : History V R → List (Option EffectId × Occurrence V)
  | [] => []
  | n :: τ => (stack.head?, n.what) :: acts (n.what.running stack) τ

/-- The effect that reads a signal, if an act is a read of it within an effect. -/
def reader (s : SignalId) : Option EffectId × Occurrence V → Option EffectId
  | (who, .read s' _) => if s' = s then who else none
  | _ => none

/-- The effects that have read a signal while their bodies were innermost, each once, in the order
of their first such reads. -/
def readers (s : SignalId) (τ : History V R) : List EffectId :=
  ((acts [] τ).filterMap (reader s)).eraseDups

variable {s : SignalId} {e : EffectId} {τ τ' : History V R} {n : Point V R}

theorem acts_append (stack : List EffectId) (τ τ' : History V R) :
    acts stack (τ ++ τ') = acts stack τ ++ acts (running stack τ) τ' := by
  induction τ generalizing stack with
  | nil => rfl
  | cons n τ ih => exact congrArg (_ :: ·) (ih _)

theorem mem_acts_iff {stack : List EffectId} {who : Option EffectId} {what : Occurrence V} :
    (who, what) ∈ acts stack τ ↔
      ∃ before g after, τ = before ++ ⟨what, g⟩ :: after ∧ (running stack before).head? = who := by
  constructor
  · intro h
    induction τ generalizing stack with
    | nil => exact absurd h List.not_mem_nil
    | cons n τ ih =>
      rcases List.mem_cons.mp h with h | h
      · obtain ⟨rfl, rfl⟩ := Prod.mk.inj h
        exact ⟨[], n.graph, τ, rfl, rfl⟩
      · obtain ⟨before, g, after, rfl, hwho⟩ := ih h
        exact ⟨n :: before, g, after, rfl, hwho⟩
  · rintro ⟨before, g, after, rfl, rfl⟩
    rw [acts_append]
    exact List.mem_append_right _ List.mem_cons_self

theorem readers_concat_of_none (h : reader s (τ.innermost, n.what) = none) :
    readers s (τ ++ [n]) = readers s τ := by
  rw [innermost] at h
  rw [readers, acts_append, acts, acts, List.filterMap_append, List.filterMap_cons_none h,
    List.filterMap_nil, List.append_nil, readers]

theorem readers_concat_of_some (h : reader s (τ.innermost, n.what) = some e) :
    readers s (τ ++ [n]) = e.enlist (readers s τ) := by
  rw [innermost] at h
  rw [readers, acts_append, acts, acts, List.filterMap_append, List.filterMap_cons_some h,
    List.filterMap_nil, List.eraseDups_append, EffectId.enlist, readers, List.removeAll]
  by_cases he : e ∈ (acts [] τ).filterMap (reader s)
  · simp [he]
  · simp [he, List.eraseDups_cons]

/-- The readers of a signal are those that have read it while innermost. -/
theorem mem_readers_iff :
    e ∈ readers s τ ↔
      ∃ (before : History V R) (v : V) (g : Graph V R) (after : History V R),
        τ = before ++ ⟨.read s v, g⟩ :: after ∧ before.innermost = some e := by
  rw [readers, List.mem_eraseDups, List.mem_filterMap]
  constructor
  · rintro ⟨⟨who, what⟩, hact, hreader⟩
    cases what with
    | read s' v =>
      obtain ⟨rfl, rfl⟩ := Option.ite_none_right_eq_some.mp hreader
      obtain ⟨before, g, after, hτ, hwho⟩ := mem_acts_iff.mp hact
      exact ⟨before, v, g, after, hτ, hwho⟩
    | _ => contradiction
  · rintro ⟨before, v, g, after, hτ, hwho⟩
    exact ⟨(some e, .read s v), mem_acts_iff.mpr ⟨before, g, after, hτ, hwho⟩, if_pos rfl⟩

theorem nodup_readers (s : SignalId) (τ : History V R) : (readers s τ).Nodup := by
  induction τ using List.reverseRecOn with
  | nil => exact List.nodup_nil
  | append_singleton τ n ih =>
    cases hr : reader s (innermost τ, n.what) with
    | none => rwa [readers_concat_of_none hr]
    | some e =>
      rw [readers_concat_of_some hr]
      exact e.nodup_enlist ih

end History

/-! ## What the graph keeps -/

variable [Inhabited V]

/-- Whether a graph attributes reads as a history does, and to effects and signals that exist. -/
structure Tracked (past : History V R) (g : Graph V R) : Prop where
  current : g.current = past.innermost
  subscribers : ∀ s, g.activeSubscribers s = (past.readers s).filter g.isActive
  running_lt : ∀ e ∈ past.running [], e.index < g.effects.size
  subscriber_lt : ∀ s, ∀ e ∈ (g.signal s).subscribers, e.index < g.effects.size
  reader_lt : ∀ s, ∀ e ∈ past.readers s, e.index < g.effects.size

/-- Of two conditions, one after the other, the narrower decides. -/
private theorem filter_filter_of_imp {β : Type} {xs : List β} {p q : β → Bool}
    (h : ∀ x ∈ xs, q x = true → p x = true) : (xs.filter p).filter q = xs.filter q := by
  rw [List.filter_filter]
  refine List.filter_congr fun x hx ↦ ?_
  cases hq : q x with
  | false => rfl
  | true => rw [h x hx hq]; rfl

namespace Tracked

variable {past past' : History V R} {g g' : Graph V R}

theorem empty : Tracked ([] : History V R) Graph.empty where
  current := rfl
  subscribers s := by
    rw [Graph.activeSubscribers, Graph.signal_of_not_lt (Nat.not_lt_zero _)]
    rfl
  running_lt _ h := absurd h List.not_mem_nil
  subscriber_lt s e h := by
    rw [Graph.signal_of_not_lt (Nat.not_lt_zero _)] at h
    exact absurd h List.not_mem_nil
  reader_lt _ _ h := absurd h List.not_mem_nil

/-- A step at which nobody reads, nobody is subscribed and no effect becomes active. It may forget
subscribers that are stopped. -/
theorem keep (h : Tracked past g) (hcurrent : g'.current = past'.innermost)
    (hrunning : ∀ e ∈ past'.running [], e.index < g'.effects.size)
    (hreaders : ∀ s, past'.readers s = past.readers s)
    (hsubscribers : ∀ s, (g'.signal s).subscribers = (g.signal s).subscribers ∨
      (g'.signal s).subscribers = g.activeSubscribers s)
    (heffects : g.effects.size ≤ g'.effects.size)
    (hactive : ∀ e, e.index < g.effects.size → g'.isActive e = true → g.isActive e = true) :
    Tracked past' g' where
  current := hcurrent
  subscribers s := by
    have hnarrow : (g.activeSubscribers s).filter g'.isActive =
        (g.signal s).subscribers.filter g'.isActive :=
      filter_filter_of_imp fun e he ↦ hactive e (h.subscriber_lt s e he)
    have hkept : g'.activeSubscribers s = (g.activeSubscribers s).filter g'.isActive := by
      rcases hsubscribers s with hs | hs
      · rw [Graph.activeSubscribers, hs, hnarrow]
      · rw [Graph.activeSubscribers, hs]
    rw [hkept, h.subscribers, hreaders]
    exact filter_filter_of_imp fun e he ↦ hactive e (h.reader_lt s e he)
  running_lt := hrunning
  subscriber_lt s e he := by
    have hold : e ∈ (g.signal s).subscribers := by
      rcases hsubscribers s with hs | hs
      · exact hs ▸ he
      · rw [hs] at he
        exact (List.mem_filter.mp he).1
    exact Nat.lt_of_lt_of_le (h.subscriber_lt s e hold) heffects
  reader_lt s e he := by
    rw [hreaders] at he
    exact Nat.lt_of_lt_of_le (h.reader_lt s e he) heffects

/-- A step of the graph at which, in addition, no body begins or ends. -/
theorem keepGraph (h : Tracked past g) (hcurrent : g'.current = g.current)
    (hsubscribers : ∀ s, (g'.signal s).subscribers = (g.signal s).subscribers ∨
      (g'.signal s).subscribers = g.activeSubscribers s)
    (heffects : g.effects.size ≤ g'.effects.size)
    (hactive : ∀ e, e.index < g.effects.size → g'.isActive e = true → g.isActive e = true) :
    Tracked past g' :=
  h.keep (hcurrent.trans h.current) (fun e he ↦ Nat.lt_of_lt_of_le (h.running_lt e he) heffects)
    (fun _ ↦ rfl) hsubscribers heffects hactive

/-- What happens besides, as long as nothing is read and no body begins or ends. -/
theorem note (h : Tracked past g) {n : Point V R}
    (hrunning : ∀ stack, n.what.running stack = stack)
    (hreader : ∀ s, History.reader s (past.innermost, n.what) = none) :
    Tracked (past ++ [n]) g := by
  have hstack : History.running [] (past ++ [n]) = History.running [] past := by
    rw [History.running_append]
    exact hrunning _
  refine h.keep ?_ ?_ ?_ (fun _ ↦ .inl rfl) (Nat.le_refl _) fun _ _ ha ↦ ha
  · rw [History.innermost, hstack]
    exact h.current
  · rw [hstack]
    exact h.running_lt
  · intro s
    exact History.readers_concat_of_none (hreader s)

theorem newSignal (h : Tracked past g) (v : V) : Tracked past (g.newSignal v).2 := by
  refine h.keepGraph rfl (fun s ↦ .inl ?_) (Nat.le_refl _) fun _ _ ha ↦ ha
  rw [Graph.signal_newSignal]
  split
  · rename_i hs
    rw [Graph.signal_of_not_lt fun hlt ↦ Nat.lt_irrefl _ (hs ▸ hlt)]
    rfl
  · rfl

theorem write (h : Tracked past g) (s : SignalId) (v : V) : Tracked past (g.write s v) := by
  refine h.keepGraph (Graph.current_write ..) (fun s' ↦ ?_)
    (Nat.le_of_eq (Graph.size_write ..).symm) fun e _ ha ↦ Graph.isActive_write g s v e ▸ ha
  rw [Graph.signal_of_modify g _ s _ (Graph.signals_write g s v)]
  split
  · rename_i hs
    exact .inr (hs.1 ▸ rfl)
  · exact .inl rfl

theorem newEffect (h : Tracked past g) (b : R) : Tracked past (g.newEffect b).2 := by
  refine h.keepGraph rfl (fun _ ↦ .inl rfl) ?_ fun e hlt ha ↦ ?_
  · rw [Graph.size_newEffect]
    exact Nat.le_succ _
  · rw [Graph.isActive, Graph.effect_newEffect] at ha
    split at ha
    · rename_i he
      rw [he] at hlt
      exact absurd hlt (Nat.lt_irrefl _)
    · exact ha

theorem dequeue {e : EffectId} (h : Tracked past g) (hd : g.dequeue? = some (e, g')) :
    Tracked past g' := by
  refine h.keepGraph (Graph.current_dequeue hd) (fun s ↦ .inl ?_)
    (Nat.le_of_eq (Graph.size_dequeue hd).symm) fun e' _ ha ↦ Graph.isActive_dequeue hd e' ▸ ha
  rw [Graph.signal, Graph.signals_dequeue hd, Graph.signal]

theorem beginRun {e : EffectId} (h : Tracked past g) (ha : g.isActive e = true) :
    Tracked (past ++ [⟨.began e, g.beginRun e⟩]) (g.beginRun e) := by
  have hstack : History.running [] (past ++ [⟨.began e, g.beginRun e⟩]) =
      e :: History.running [] past := History.running_append ..
  refine h.keep ?_ ?_ ?_ (fun _ ↦ .inl rfl) (Nat.le_of_eq (Graph.size_beginRun ..).symm)
    fun e' _ ha' ↦ Graph.isActive_beginRun g e e' ▸ ha'
  · rw [History.innermost, hstack]
    rfl
  · rw [hstack, Graph.size_beginRun]
    exact List.forall_mem_cons.mpr ⟨Graph.lt_of_isActive ha, h.running_lt⟩
  · intro s
    exact History.readers_concat_of_none rfl

/-- The end of a body. What began in between has ended, so what was innermost before the body began
is so again, and this is what the graph has kept. -/
theorem endRun {e : EffectId} {τ : History V R} {body : Option R} (h : Tracked past g)
    (hbalanced : τ.Balanced)
    (hran : Tracked (past ++ ⟨.began e, g.beginRun e⟩ :: τ) g') :
    Tracked (past ++ ⟨.began e, g.beginRun e⟩ :: (τ ++ [⟨.ended e, g'.endRun e g.current body⟩]))
      (g'.endRun e g.current body) := by
  have hinner : History.running [] (past ++ ⟨.began e, g.beginRun e⟩ :: τ) =
      e :: History.running [] past := by
    rw [History.running_append, History.running_cons, hbalanced]
    rfl
  have hstack : History.running []
      (past ++ ⟨.began e, g.beginRun e⟩ :: (τ ++ [⟨.ended e, g'.endRun e g.current body⟩])) =
        History.running [] past := by
    rw [History.running_append]
    exact hbalanced.bracket e _ _ _
  refine hran.keep ?_ ?_ ?_ (fun s ↦ .inl ?_) (Nat.le_of_eq (Graph.size_endRun ..).symm)
    fun e' _ ha ↦ Graph.isActive_endRun g' e _ _ e' ▸ ha
  · rw [Graph.current_endRun, History.innermost, hstack]
    exact h.current
  · rw [hstack, Graph.size_endRun]
    intro e' he'
    exact hran.running_lt e' (hinner ▸ List.mem_cons_of_mem e he')
  · intro s
    rw [← List.cons_append, ← List.append_assoc]
    exact History.readers_concat_of_none rfl
  · rw [Graph.signal, Graph.signals_endRun, Graph.signal]

/-- A read within an effect. If the effect is active, then it is a subscriber exactly if it has read
before. -/
theorem readWithin {s : SignalId} {e : EffectId} (h : Tracked past g)
    (hs : s.index < g.signals.size) (hc : g.current = some e) (v : V) :
    Tracked (past ++ [⟨.read s v, g.track s⟩]) (g.track s) := by
  have hstack : History.running [] (past ++ [⟨.read s v, g.track s⟩]) =
      History.running [] past := History.running_append ..
  have hinnermost : past.innermost = some e := h.current.symm.trans hc
  have he : e.index < g.effects.size := h.running_lt e (List.mem_of_head? hinnermost)
  have heffects : (g.track s).effects.size = g.effects.size :=
    congrArg Array.size (Graph.effects_track g s)
  have hactive : (g.track s).isActive = g.isActive :=
    funext fun e' ↦ congrArg Effect.active (Graph.effect_track g s e')
  -- both books enlist the effect for the signal that is read, and are otherwise as before
  have hbooks : ∀ s',
      ((g.track s).signal s').subscribers = (g.signal s').subscribers ∧
        History.readers s' (past ++ [⟨.read s v, g.track s⟩]) = past.readers s' ∨
      ((g.track s).signal s').subscribers = e.enlist (g.signal s').subscribers ∧
        History.readers s' (past ++ [⟨.read s v, g.track s⟩]) = e.enlist (past.readers s') := by
    intro s'
    rw [Graph.track_of_some hc, Graph.signal_of_modify g _ s (Signal.subscribe e) rfl]
    by_cases hs' : s = s'
    · have hread : History.reader s' (past.innermost, .read s v) = some e :=
        (if_pos hs').trans hinnermost
      rw [if_pos ⟨hs'.symm, hs⟩, ← hs', Signal.subscribe, EffectId.enlist]
      exact .inr ⟨apply_ite .., History.readers_concat_of_some (hs' ▸ hread)⟩
    · have hread : History.reader s' (past.innermost, .read s v) = none := if_neg hs'
      rw [if_neg fun hn ↦ hs' hn.1.symm]
      exact .inl ⟨rfl, History.readers_concat_of_none hread⟩
  constructor
  case current =>
    rw [Graph.current_track, History.innermost, hstack]
    exact h.current
  case subscribers =>
    intro s'
    rw [Graph.activeSubscribers, hactive]
    rcases hbooks s' with ⟨hsubscribers, hreaders⟩ | ⟨hsubscribers, hreaders⟩
    · rw [hsubscribers, hreaders]
      exact h.subscribers s'
    · rw [hsubscribers, hreaders]
      exact EffectId.filter_enlist (h.subscribers s') e
  case running_lt =>
    rw [hstack, heffects]
    exact h.running_lt
  case subscriber_lt =>
    intro s' e' he'
    rw [heffects]
    rcases hbooks s' with ⟨hsubscribers, -⟩ | ⟨hsubscribers, -⟩
    · exact h.subscriber_lt s' e' (hsubscribers ▸ he')
    · rcases EffectId.mem_enlist (hsubscribers ▸ he') with he' | rfl
      · exact h.subscriber_lt s' e' he'
      · exact he
  case reader_lt =>
    intro s' e' he'
    rw [heffects]
    rcases hbooks s' with ⟨-, hreaders⟩ | ⟨-, hreaders⟩
    · exact h.reader_lt s' e' (hreaders ▸ he')
    · rcases EffectId.mem_enlist (hreaders ▸ he') with he' | rfl
      · exact h.reader_lt s' e' he'
      · exact he

end Tracked

/-- Every step keeps the books in agreement. -/
theorem Tracked.invariant : History.Invariant (Tracked (V := V) (R := R)) where
  looked _ _ h := h.note (fun _ ↦ rfl) fun _ ↦ rfl
  changed _ _ h := h.note (fun _ ↦ rfl) fun _ ↦ rfl
  newSignal _ _ v h := (h.newSignal v).note (fun _ ↦ rfl) fun _ ↦ rfl
  read past g s hs h := by
    cases hc : g.current with
    | none =>
      rw [Graph.track_of_none hc]
      refine h.note (fun _ ↦ rfl) fun s' ↦ ?_
      rw [← h.current, hc]
      exact ite_self _
    | some e => exact h.readWithin hs hc _
  write _ _ s v h := (h.write s v).note (fun _ ↦ rfl) fun _ ↦ rfl
  flush _ _ _ h :=
    h.keepGraph rfl (fun _ ↦ .inl rfl) (Nat.le_refl _) fun _ _ ha ↦ ha
  dequeue _ _ _ _ hd h := h.dequeue hd
  settled past g _ h := by
    have hidle : Tracked past { g with flushing := false } :=
      h.keepGraph rfl (fun _ ↦ .inl rfl) (Nat.le_refl _) fun _ _ ha ↦ ha
    exact hidle.note (fun _ ↦ rfl) fun _ ↦ rfl
  newEffect _ _ b h := (h.newEffect b).note (fun _ ↦ rfl) fun _ ↦ rfl
  registered _ _ _ h := h.note (fun _ ↦ rfl) fun _ ↦ rfl
  stop _ g e _ h := by
    refine Tracked.note ?_ (fun _ ↦ rfl) fun _ ↦ rfl
    exact h.keepGraph rfl (fun _ ↦ .inl rfl) (Nat.le_of_eq (Graph.size_stop g e).symm)
      fun _ _ ha ↦ Graph.isActive_of_stop ha
  began _ _ _ _ ha _ h := h.beginRun ha
  ended _ _ _ _ _ _ _ _ hbalanced h hran := h.endRun hbalanced hran

/-! ## The books agree -/

/-- What a graph says about who is tracked and subscribed, in terms of what has happened: the
current effect is the innermost whose body runs, and the active subscribers of a signal are the
active effects that have read it while innermost, each once, in the order of their first reads. -/
structure Attributed (past : History V R) (g : Graph V R) : Prop where
  current : g.current = past.innermost
  subscribers : ∀ s, g.activeSubscribers s = (past.readers s).filter g.isActive
  nodup : ∀ s, (g.activeSubscribers s).Nodup
  subscribed_iff : ∀ s e, e ∈ g.activeSubscribers s ↔
    g.isActive e = true ∧
      ∃ (before : History V R) (v : V) (g' : Graph V R) (after : History V R),
        past = before ++ ⟨.read s v, g'⟩ :: after ∧ before.innermost = some e

theorem Tracked.attributed {past : History V R} {g : Graph V R} (h : Tracked past g) :
    Attributed past g where
  current := h.current
  subscribers := h.subscribers
  nodup s := by
    rw [h.subscribers]
    exact (past.nodup_readers s).filter _
  subscribed_iff s e := by
    rw [h.subscribers, List.mem_filter, History.mem_readers_iff]
    exact and_comm

namespace Meaning

/-- **Subscriptions record exactly who has read.** Whatever code runs on a new graph, and whether or
not it ends: at every point it comes to, the graph attributes reads as what has happened up to that
point says. When it has ended, no effect is tracked. -/
theorem subscribers_eq_readers (m : Meaning V R W Q A) (p : Script V R W Q A α) (w : W) :
    (∀ τ, m.Reaches (.script p) ⟨.empty, w⟩ τ →
      ∀ before n after, τ = before ++ n :: after → Attributed (before ++ [n]) n.graph) ∧
    ∀ fuel a st', m.run fuel p ⟨.empty, w⟩ = some (a, st') →
      ∃ τ, m.Runs (.script p) ⟨.empty, w⟩ τ a st' ∧ Attributed τ st'.graph ∧
        st'.graph.current = none := by
  constructor
  · rintro _ hτ before n after rfl
    exact (hτ.throughout Tracked.invariant .empty).point.attributed
  · intro fuel a st' hrun
    obtain ⟨τ, hτ⟩ := m.exists_fuel_iff.mp ⟨fuel, hrun⟩
    have htracked : Tracked τ st'.graph := (hτ.throughout Tracked.invariant .empty).2
    refine ⟨τ, hτ, htracked.attributed, ?_⟩
    rw [htracked.current, History.innermost, hτ.balanced]
    rfl

/-- An effect that reads the first signal, then makes an effect that reads the second, and then
looks at the second without reading it. -/
def nesting : Meaning Nat Bool Unit Empty fun _ ↦ Unit where
  body outer :=
    if outer then .read ⟨0⟩ fun _ ↦ .effect false fun _ ↦ .look fun _ _ ↦ .done ()
    else .read ⟨1⟩ fun _ ↦ .done ()
  call q := nomatch q

/-- The inner effect has its own subscription, and the outer one does not get it. -/
theorem subscribers_of_nesting :
    ∃ τ st', nesting.Runs
        (.script (.newSignal 0 fun _ ↦ .newSignal 0 fun _ ↦ .effect true fun _ ↦ .done ()))
        ⟨.empty, ()⟩ τ () st' ∧
      Attributed τ st'.graph ∧ st'.graph.activeSubscribers ⟨0⟩ = [⟨0⟩] ∧
      st'.graph.activeSubscribers ⟨1⟩ = [⟨1⟩] := by
  obtain ⟨st', hrun, hfirst, hsecond⟩ : ∃ st', nesting.run 2
      (.newSignal 0 fun _ ↦ .newSignal 0 fun _ ↦ .effect true fun _ ↦ .done ()) ⟨.empty, ()⟩ =
        some ((), st') ∧
      st'.graph.activeSubscribers ⟨0⟩ = [⟨0⟩] ∧ st'.graph.activeSubscribers ⟨1⟩ = [⟨1⟩] :=
    ⟨_, rfl, rfl, rfl⟩
  obtain ⟨τ, hτ, hattributed, -⟩ := (subscribers_eq_readers nesting _ ()).2 2 () st' hrun
  exact ⟨τ, st', hτ, hattributed, hfirst, hsecond⟩

end Meaning

end LiveMarkup
