import Mathlib.Data.List.Nodup
import LiveMarkup.Proofs.Reactive.Quiescence

/-!
# One write, one pass

A write to a signal queues the subscribers of the signal and works off the queue. If their bodies
set no signal and make no effect, then nothing is queued meanwhile, and the flush is one pass over
the subscribers, from the last to the first. Bodies may still stop effects, those that have had
their turn, the one whose turn it is and those that wait.

The pass is found in two steps. Code that sets nothing and makes nothing leaves the graph
undisturbed (`Graph.Undisturbed`): no value changes, no body is lost, and no effect stops being
active but those that it stops. A flush over such code goes through the queue as it stands
(`Sweep`), and what is said about the order of the bodies is an induction over that.
-/

namespace LiveMarkup

variable {V R W Q : Type} {A : Q → Type} {α : Type}

/-! ## Passive code -/

/-- Whether the signals and the effects that exist stay as they are, whatever the graph. -/
def Occurrence.isIdle : Occurrence V → Bool
  | .looked | .changed | .made _ => true
  | _ => false

/-- Whether no signal is set and no effect is made. -/
def Occurrence.isPassive : Occurrence V → Bool
  | .wrote .. | .created _ => false
  | _ => true

namespace History

/-- Whether in a history no signal is set and no effect is made. -/
def Passive (τ : History V R) : Prop := ∀ n ∈ τ, n.what.isPassive = true

/-- Whether in a history no body begins and none ends. -/
def Level (τ : History V R) : Prop := ∀ n ∈ τ, ∀ stack, n.what.running stack = stack

theorem Level.append {τ τ' : History V R} (h : τ.Level) (h' : τ'.Level) : Level (τ ++ τ') :=
  List.forall_mem_append.mpr ⟨h, h'⟩

theorem Level.balanced {τ : History V R} (h : τ.Level) : τ.Balanced := by
  intro stack
  induction τ generalizing stack with
  | nil => rfl
  | cons n τ ih =>
    obtain ⟨hn, hτ⟩ := List.forall_mem_cons.mp h
    rw [running_cons, hn, ih hτ]

theorem Level.begun {τ : History V R} (h : τ.Level) : τ.begun = [] := by
  refine List.filterMap_eq_nil_iff.mpr fun n hn ↦ ?_
  have hrunning := h n hn []
  cases hwhat : n.what with
  | began e =>
    rw [hwhat] at hrunning
    contradiction
  | _ => rfl

theorem Level.acts {τ : History V R} (h : τ.Level) (stack : List EffectId) :
    τ.acts stack = τ.map fun n ↦ (stack.head?, n.what) := by
  induction τ with
  | nil => rfl
  | cons n τ ih =>
    obtain ⟨hn, hτ⟩ := List.forall_mem_cons.mp h
    rw [History.acts, hn, ih hτ, List.map_cons]

end History

variable [Inhabited V]

/-- Whether code sets no signal and makes no effect, from whatever state it runs. -/
def Meaning.Passive (m : Meaning V R W Q A) (p : Script V R W Q A α) : Prop :=
  ∀ st τ a st', m.Runs (.script p) st τ a st' → τ.Passive

/-- Whether code ends, from whatever state it runs. -/
def Meaning.Ends (m : Meaning V R W Q A) (p : Script V R W Q A α) : Prop :=
  ∀ st, ∃ τ a st', m.Runs (.script p) st τ a st'

/-! ## Graphs that are left undisturbed -/

namespace Graph

/-- What becomes of a graph while no signal is set and no effect is made, where only effects of
`who` may be subscribed. -/
structure Undisturbed (who : EffectId → Prop) (g : Graph V R) (τ : History V R) (g' : Graph V R) :
    Prop where
  effects : g'.effects.size = g.effects.size
  signals : g.signals.size ≤ g'.signals.size
  active : ∀ e, g'.isActive e = true ↔ g.isActive e = true ∧ ∀ n ∈ τ, n.what ≠ .stopped e
  body : ∀ e, g'.isActive e = true → (g'.effect e).body = (g.effect e).body
  value : ∀ s, s.index < g.signals.size → g'.value s = g.value s
  read : ∀ n ∈ τ, ∀ s v, n.what = .read s v → s.index < g.signals.size → v = g.value s
  subscribers : ∀ s, s.index < g.signals.size → (∀ e, who e → e ∈ (g.signal s).subscribers) →
    (g'.signal s).subscribers = (g.signal s).subscribers

namespace Undisturbed

variable {who who' : EffectId → Prop} {g g' g'' : Graph V R} {τ τ' : History V R}

/-- Nothing that happens concerns the signals and the effects, and they stay what they are. -/
theorem same (hτ : ∀ n ∈ τ, n.what.isIdle = true)
    (heffects : g'.effects.size = g.effects.size) (hactive : ∀ e, g'.isActive e = g.isActive e)
    (hbody : ∀ e, (g'.effect e).body = (g.effect e).body)
    (hsignals : g.signals.size ≤ g'.signals.size)
    (hsignal : ∀ s, s.index < g.signals.size → g'.signal s = g.signal s) :
    g.Undisturbed who τ g' where
  effects := heffects
  signals := hsignals
  active e := by
    rw [hactive]
    refine ⟨fun ha ↦ ⟨ha, fun n hn hstopped ↦ ?_⟩, And.left⟩
    exact Bool.noConfusion ((congrArg Occurrence.isIdle hstopped).symm.trans (hτ n hn))
  body e _ := hbody e
  value s hs := congrArg Signal.value (hsignal s hs)
  read n hn s v hread :=
    Bool.noConfusion ((congrArg Occurrence.isIdle hread).symm.trans (hτ n hn))
  subscribers s hs _ := congrArg Signal.subscribers (hsignal s hs)

theorem refl (who : EffectId → Prop) (g : Graph V R) : g.Undisturbed who [] g :=
  same (List.forall_mem_nil _) rfl (fun _ ↦ rfl) (fun _ ↦ rfl) (Nat.le_refl _) fun _ _ ↦ rfl

theorem trans (h : g.Undisturbed who τ g') (h' : g'.Undisturbed who τ' g'') :
    g.Undisturbed who (τ ++ τ') g'' where
  effects := h'.effects.trans h.effects
  signals := Nat.le_trans h.signals h'.signals
  active e := by
    rw [h'.active, h.active, List.forall_mem_append, and_assoc]
  body e ha := (h'.body e ha).trans (h.body e ((h'.active e).mp ha).1)
  value s hs := (h'.value s (Nat.lt_of_lt_of_le hs h.signals)).trans (h.value s hs)
  read n hn s v hread hs := by
    rcases List.mem_append.mp hn with hn | hn
    · exact h.read n hn s v hread hs
    · exact (h'.read n hn s v hread (Nat.lt_of_lt_of_le hs h.signals)).trans (h.value s hs)
  subscribers s hs hwho := by
    have hfirst := h.subscribers s hs hwho
    refine (h'.subscribers s (Nat.lt_of_lt_of_le hs h.signals) ?_).trans hfirst
    rwa [hfirst]

theorem mono (h : g.Undisturbed who τ g') (hwho : ∀ e, who e → who' e) :
    g.Undisturbed who' τ g' :=
  { h with subscribers := fun s hs hall ↦ h.subscribers s hs fun e he ↦ hall e (hwho e he) }

theorem dequeue (who : EffectId → Prop) {e : EffectId} (hd : g.dequeue? = some (e, g')) :
    g.Undisturbed who [] g' :=
  same (List.forall_mem_nil _) (size_dequeue hd) (isActive_dequeue hd) (body_dequeue hd)
    (Nat.le_of_eq (congrArg Array.size (signals_dequeue hd).symm)) fun s _ ↦ by
      rw [signal, signals_dequeue hd, signal]

end Undisturbed

/-- What passive code makes of a graph, seen from the body in which it runs. -/
structure Contained (g : Graph V R) (τ : History V R) (g' : Graph V R) : Prop where
  undisturbed : g.Undisturbed (g.current = some ·) τ g'
  current : g'.current = g.current
  queue : g'.queue = g.queue
  level : τ.Level

namespace Contained

variable {g g' g'' : Graph V R} {τ τ' : History V R}

theorem refl (g : Graph V R) : g.Contained [] g :=
  ⟨.refl _ g, rfl, rfl, List.forall_mem_nil _⟩

theorem trans (h : g.Contained τ g') (h' : g'.Contained τ' g'') : g.Contained (τ ++ τ') g'' where
  undisturbed := by
    have hsecond := h'.undisturbed
    rw [h.current] at hsecond
    exact h.undisturbed.trans hsecond
  current := h'.current.trans h.current
  queue := h'.queue.trans h.queue
  level := h.level.append h'.level

/-- Code that does nothing to the graph. -/
theorem same {n : Point V R} (hidle : n.what.isIdle = true)
    (hlevel : ∀ stack, n.what.running stack = stack) (g : Graph V R) : g.Contained [n] g where
  undisturbed := by
    refine .same (List.forall_mem_singleton.mpr hidle) rfl (fun _ ↦ rfl) (fun _ ↦ rfl)
      (Nat.le_refl _) fun _ _ ↦ rfl
  current := rfl
  queue := rfl
  level := List.forall_mem_singleton.mpr hlevel

theorem newSignal (g : Graph V R) (v : V) :
    g.Contained [⟨.made (g.newSignal v).1, (g.newSignal v).2⟩] (g.newSignal v).2 where
  undisturbed := by
    refine .same (List.forall_mem_singleton.mpr rfl) rfl (fun _ ↦ rfl) (fun _ ↦ rfl) ?_
      fun s hs ↦ signal_newSignal_of_lt hs v
    rw [size_newSignal]
    exact Nat.le_succ _
  current := rfl
  queue := rfl
  level := List.forall_mem_singleton.mpr fun _ ↦ rfl

/-- A read subscribes the current effect, if it is not subscribed yet. -/
theorem read (g : Graph V R) (s : SignalId) :
    g.Contained [⟨.read s (g.value s), g.track s⟩] (g.track s) where
  undisturbed := by
    constructor
    case effects => exact congrArg Array.size (effects_track g s)
    case signals => exact Nat.le_of_eq (size_track g s).symm
    case active =>
      intro e
      rw [isActive, effect_track, isActive]
      refine ⟨fun ha ↦ ⟨ha, List.forall_mem_singleton.mpr ?_⟩, And.left⟩
      rintro ⟨⟩
    case body => exact fun e _ ↦ congrArg Effect.body (effect_track g s e)
    case value => exact fun s' _ ↦ value_track g s s'
    case read =>
      intro n hn s' v hread _
      rw [List.mem_singleton.mp hn] at hread
      injection hread with hs hv
      rw [← hs, hv]
    case subscribers =>
      intro s' _ hwho
      cases hc : g.current with
      | none => rw [track_of_none hc]
      | some e =>
        rw [track_of_some hc, signal_of_modify g _ s (Signal.subscribe e) rfl]
        split
        · rename_i hs
          rw [Signal.subscribe, if_pos (hs.1 ▸ hwho e hc), hs.1]
        · rfl
  current := current_track g s
  queue := queue_track g s
  level := List.forall_mem_singleton.mpr fun _ ↦ rfl

theorem stop (g : Graph V R) (e : EffectId) : g.Contained [⟨.stopped e, g.stop e⟩] (g.stop e) where
  undisturbed := by
    have hcell (e' : EffectId) (ha : (g.stop e).isActive e' = true) :
        e' ≠ e ∧ (g.stop e).effect e' = g.effect e' := by
      rw [isActive, effect_stop] at ha
      rw [effect_stop]
      split at ha
      · contradiction
      · rename_i hne
        exact ⟨hne, if_neg hne⟩
    constructor
    case effects => exact size_stop g e
    case signals => exact Nat.le_refl _
    case active =>
      intro e'
      rw [List.forall_mem_singleton]
      constructor
      · intro ha
        obtain ⟨hne, -⟩ := hcell e' ha
        exact ⟨isActive_of_stop ha, fun he ↦ hne (Occurrence.stopped.inj he).symm⟩
      · rintro ⟨ha, hne⟩
        rw [isActive, effect_stop, if_neg fun he ↦ hne (congrArg _ he.symm)]
        exact ha
    case body => exact fun e' ha ↦ congrArg Effect.body (hcell e' ha).2
    case value => exact fun _ _ ↦ rfl
    case read =>
      intro n hn s v hread
      rw [List.mem_singleton.mp hn] at hread
      contradiction
    case subscribers => exact fun _ _ _ ↦ rfl
  current := rfl
  queue := rfl
  level := List.forall_mem_singleton.mpr fun _ ↦ rfl

end Contained

end Graph

open LiveMarkup.Graph

theorem Script.Step.contained {p p' : Script V R W Q A α} {st st' : State V R W} {τ : History V R}
    (h : p.Step st τ p' st') (hτ : τ.Passive) : st.graph.Contained τ st'.graph := by
  cases h with
  | look | change => exact .same rfl (fun _ ↦ rfl) st.graph
  | newSignal v => exact .newSignal st.graph v
  | read s => exact .read st.graph s
  | stop e => exact .stop st.graph e
  | readNothing | stopNothing => exact .refl st.graph
  | write => exact Bool.noConfusion (hτ _ List.mem_cons_self)

/-- Passive code keeps to itself: the only rules that it can use are steps and calls. -/
theorem Meaning.Runs.contained {m : Meaning V R W Q A} {j : Job V R W Q A α} {st st' : State V R W}
    {τ : History V R} {a : α} (h : m.Runs j st τ a st') (hτ : τ.Passive)
    {p : Script V R W Q A α} (hj : j = .script p) : st.graph.Contained τ st'.graph := by
  induction h with
  | done a st => exact .refl st.graph
  | step hstep _ ih =>
    obtain ⟨hfirst, hnext⟩ := List.forall_mem_append.mp hτ
    exact (hstep.contained hfirst).trans (ih hnext rfl)
  | write => exact Bool.noConfusion (hτ _ List.mem_cons_self)
  | effect => exact Bool.noConfusion (hτ _ List.mem_cons_self)
  | call _ _ ih₁ ih₂ =>
    obtain ⟨hanswer, hnext⟩ := List.forall_mem_append.mp hτ
    exact (ih₁ hanswer rfl).trans (ih₂ hnext rfl)
  | _ => cases hj

/-! ## Turns -/

namespace History

/-- Whether a history is that of one body, in which no other begins. -/
structure Turn (e : EffectId) (τ : History V R) : Prop where
  begun : τ.begun = [e]
  balanced : τ.Balanced
  own : ∀ who what, (some who, what) ∈ τ.acts [] → who = e
  stops : ∀ n ∈ τ, ∀ e', n.what = .stopped e' → (some e, .stopped e') ∈ τ.acts []

omit [Inhabited V] in
theorem Level.turn {τ : History V R} (h : τ.Level) (e : EffectId) (g g' : Graph V R) :
    Turn e (⟨.began e, g⟩ :: (τ ++ [⟨.ended e, g'⟩])) := by
  have hacts : History.acts [] (⟨.began e, g⟩ :: (τ ++ [⟨.ended e, g'⟩])) =
      (none, .began e) :: (τ.map (fun n ↦ (some e, n.what)) ++ [(some e, .ended e)]) := by
    refine congrArg (_ :: ·) ?_
    rw [acts_append, Occurrence.running, h.acts, h.balanced]
    rfl
  constructor
  case begun =>
    refine congrArg (e :: ·) ?_
    exact (begun_append τ _).trans (congrArg (· ++ []) h.begun)
  case balanced => exact h.balanced.bracket e g g'
  case own =>
    intro who what hact
    rw [hacts] at hact
    rcases List.mem_cons.mp hact with hact | hact
    · cases hact
    · rcases List.mem_append.mp hact with hact | hact
      · obtain ⟨n, -, hn⟩ := List.mem_map.mp hact
        exact (Option.some.inj (congrArg Prod.fst hn)).symm
      · exact Option.some.inj (congrArg Prod.fst (List.mem_singleton.mp hact))
  case stops =>
    intro n hn e' hstopped
    rw [hacts]
    rcases List.mem_cons.mp hn with rfl | hn
    · contradiction
    · rcases List.mem_append.mp hn with hn | hn
      · refine List.mem_cons_of_mem _ (List.mem_append_left _ ?_)
        exact List.mem_map.mpr ⟨n, hn, congrArg (Prod.mk _) hstopped⟩
      · rw [List.mem_singleton.mp hn] at hstopped
        contradiction

end History

/-- Passive code as the body of an effect. The body is back afterwards. -/
theorem Graph.Contained.turn {e : EffectId} {b : R} {g g' : Graph V R} {τ : History V R}
    (h : (g.beginRun e).Contained τ g') (hb : (g.effect e).body = some b)
    (outer : Option EffectId) :
    g.Undisturbed (· = e)
      (⟨.began e, g.beginRun e⟩ :: (τ ++ [⟨.ended e, g'.endRun e outer (some b)⟩]))
      (g'.endRun e outer (some b)) := by
  have hinner := h.undisturbed
  constructor
  case effects => rw [size_endRun, hinner.effects, size_beginRun]
  case signals =>
    rw [signals_endRun]
    exact hinner.signals
  case active =>
    intro e'
    rw [isActive_endRun, hinner.active, isActive_beginRun, List.forall_mem_cons,
      List.forall_mem_append, List.forall_mem_singleton]
    constructor
    · rintro ⟨ha, hτ⟩
      refine ⟨ha, ?_, hτ, ?_⟩ <;> rintro ⟨⟩
    · rintro ⟨ha, -, hτ, -⟩
      exact ⟨ha, hτ⟩
  case body =>
    intro e' ha'
    rw [isActive_endRun] at ha'
    rw [effect_endRun]
    split
    · rename_i he
      rw [he.1, hb]
    · rename_i hne
      have he' : e' ≠ e := fun he ↦ hne ⟨he, he ▸ ha'⟩
      rw [hinner.body e' ha', effect_beginRun, if_neg he']
  case value =>
    intro s hs
    rw [value, signal, signals_endRun]
    exact hinner.value s hs
  case read =>
    intro n hn s v hread hs
    rcases List.mem_cons.mp hn with rfl | hn
    · contradiction
    · rcases List.mem_append.mp hn with hn | hn
      · exact hinner.read n hn s v hread hs
      · rw [List.mem_singleton.mp hn] at hread
        contradiction
  case subscribers =>
    intro s hs hwho
    rw [signal, signals_endRun]
    exact hinner.subscribers s hs fun e' he' ↦ hwho e' (Option.some.inj he').symm

/-! ## The pass -/

/-- A flush that goes through the effects of a list, each of which is skipped if it was stopped and
else has its turn. -/
inductive Sweep : List EffectId → Graph V R → History V R → Graph V R → Prop where
  | done (g : Graph V R) : Sweep [] g [] g
  | skip {e : EffectId} {es : List EffectId} {g g₁ g' : Graph V R} {τ : History V R}
      (inactive : g.isActive e = false) (same : g.Undisturbed (· = e) [] g₁)
      (rest : Sweep es g₁ τ g') : Sweep (e :: es) g τ g'
  | turn {e : EffectId} {es : List EffectId} {g g₁ g' : Graph V R} {τ₁ τ₂ : History V R}
      (active : g.isActive e = true) (turn : τ₁.Turn e) (same : g.Undisturbed (· = e) τ₁ g₁)
      (rest : Sweep es g₁ τ₂ g') : Sweep (e :: es) g (τ₁ ++ τ₂) g'

namespace Sweep

variable {es : List EffectId} {g g' : Graph V R} {τ : History V R}

theorem undisturbed (h : Sweep es g τ g') : g.Undisturbed (· ∈ es) τ g' := by
  induction h with
  | done g => exact .refl _ g
  | skip _ hsame _ ih | turn _ _ hsame _ ih =>
    refine (hsame.mono fun _ he ↦ ?_).trans (ih.mono fun _ ↦ List.mem_cons_of_mem _)
    exact List.mem_cons.mpr (.inl he)

/-- No bodies run but those of the list, in its order. -/
theorem begun_sublist (h : Sweep es g τ g') : τ.begun.Sublist es := by
  induction h with
  | done => exact List.Sublist.refl []
  | skip _ _ _ ih => exact ih.cons _
  | turn _ hturn _ _ ih =>
    rw [History.begun_append, hturn.begun]
    exact ih.cons_cons _

theorem who_mem (h : Sweep es g τ g') {who : EffectId} {what : Occurrence V}
    (hact : (some who, what) ∈ τ.acts []) : who ∈ es := by
  induction h with
  | done => exact absurd hact List.not_mem_nil
  | skip _ _ _ ih => exact List.mem_cons_of_mem _ (ih hact)
  | turn _ hturn _ _ ih =>
    rw [History.acts_append, hturn.balanced] at hact
    rcases List.mem_append.mp hact with hact | hact
    · exact hturn.own who what hact ▸ List.mem_cons_self
    · exact List.mem_cons_of_mem _ (ih hact)

/-- Who runs: those that are active and that no body before has stopped. -/
theorem mem_begun_iff (h : Sweep es g τ g') (hnodup : es.Nodup) {earlier later : List EffectId}
    {e : EffectId} (hes : es = earlier ++ e :: later) :
    e ∈ τ.begun ↔
      g.isActive e = true ∧ ∀ e' ∈ earlier, (some e', .stopped e) ∉ τ.acts [] := by
  induction h generalizing earlier with
  | done => exact absurd hes.symm (List.append_ne_nil_of_right_ne_nil _ (List.cons_ne_nil _ _))
  | @skip e₀ es g g₁ g' τ hinactive hsame hrest ih =>
    obtain ⟨hnew, hnodup⟩ := List.nodup_cons.mp hnodup
    cases earlier with
    | nil =>
      obtain ⟨rfl, -⟩ := List.cons.inj hes
      constructor
      · exact fun hbegun ↦ absurd (hrest.begun_sublist.subset hbegun) hnew
      · exact fun ha ↦ Bool.noConfusion (hinactive.symm.trans ha.1)
    | cons e' earlier =>
      obtain ⟨rfl, htail⟩ := List.cons.inj hes
      rw [ih hnodup htail, hsame.active, List.forall_mem_cons]
      constructor
      · rintro ⟨ha, hearlier⟩
        exact ⟨ha.1, fun hact ↦ hnew (hrest.who_mem hact), hearlier⟩
      · rintro ⟨ha, -, hearlier⟩
        exact ⟨⟨ha, List.forall_mem_nil _⟩, hearlier⟩
  | @turn e₀ es g g₁ g' τ₁ τ₂ hactive hturn hsame hrest ih =>
    obtain ⟨hnew, hnodup⟩ := List.nodup_cons.mp hnodup
    rw [History.begun_append, hturn.begun, History.acts_append, hturn.balanced]
    cases earlier with
    | nil =>
      obtain ⟨rfl, -⟩ := List.cons.inj hes
      exact ⟨fun _ ↦ ⟨hactive, List.forall_mem_nil _⟩, fun _ ↦ List.mem_cons_self⟩
    | cons e' earlier =>
      obtain ⟨rfl, htail⟩ := List.cons.inj hes
      have he : e ∈ es := htail ▸ List.mem_append_right _ List.mem_cons_self
      have hne : e ≠ e₀ := fun h ↦ hnew (h ▸ he)
      have hstops : (∀ n ∈ τ₁, n.what ≠ .stopped e) ↔ (some e₀, .stopped e) ∉ τ₁.acts [] := by
        constructor
        · intro hτ₁ hact
          obtain ⟨before, g₂, after, rfl, -⟩ := History.mem_acts_iff.mp hact
          exact hτ₁ _ (List.mem_append_right _ List.mem_cons_self) rfl
        · exact fun hact n hn hstopped ↦ hact (hturn.stops n hn e hstopped)
      rw [List.singleton_append, List.mem_cons, or_iff_right hne, ih hnodup htail, hsame.active,
        hstops, List.forall_mem_cons]
      constructor
      · rintro ⟨⟨ha, hfirst⟩, hearlier⟩
        refine ⟨ha, fun hact ↦ ?_, fun e' he' hact ↦ ?_⟩
        · rcases List.mem_append.mp hact with hact | hact
          · exact hfirst hact
          · exact hnew (hrest.who_mem hact)
        · rcases List.mem_append.mp hact with hact | hact
          · exact hnew (hturn.own _ _ hact ▸ htail ▸ List.mem_append_left _ he')
          · exact hearlier e' he' hact
      · rintro ⟨ha, hfirst, hearlier⟩
        refine ⟨⟨ha, fun hact ↦ hfirst (List.mem_append_left _ hact)⟩, fun e' he' hact ↦ ?_⟩
        exact hearlier e' he' (List.mem_append_right _ hact)

end Sweep

/-! ## Flushes over passive code -/

/-- Whether the bodies of those effects of a list that are active are there and satisfy a
condition. -/
def Graph.Ready (P : R → Prop) (es : List EffectId) (g : Graph V R) : Prop :=
  ∀ e ∈ es, g.isActive e = true → ∃ b, (g.effect e).body = some b ∧ P b

theorem Graph.Ready.undisturbed {P : R → Prop} {es : List EffectId} {who : EffectId → Prop}
    {g g' : Graph V R} {τ : History V R} (h : g.Ready P es) (hu : g.Undisturbed who τ g') :
    g'.Ready P es := by
  intro e he ha
  rw [hu.body e ha]
  exact h e he ((hu.active e).mp ha).1

omit [Inhabited V] in
theorem Graph.Ready.imp {P P' : R → Prop} {es : List EffectId} {g : Graph V R} (h : g.Ready P es)
    (hP : ∀ b, P b → P' b) : g.Ready P' es := by
  intro e he ha
  obtain ⟨b, hb, hPb⟩ := h e he ha
  exact ⟨b, hb, hP b hPb⟩

omit [Inhabited V] in
theorem Graph.Ready.head {P : R → Prop} {e : EffectId} {es : List EffectId} {g : Graph V R}
    (h : g.Ready P (e :: es)) : g.Ready P [e] :=
  List.forall_mem_singleton.mpr (h e List.mem_cons_self)

omit [Inhabited V] in
theorem Graph.Ready.tail {P : R → Prop} {e : EffectId} {es : List EffectId} {g : Graph V R}
    (h : g.Ready P (e :: es)) : g.Ready P es :=
  fun e' he' ↦ h e' (List.mem_cons_of_mem e he')

namespace Meaning

variable {m : Meaning V R W Q A} {st st' : State V R W} {τ : History V R} {es : List EffectId}

/-- The turn of an effect of the queue: either it was stopped, or its body runs. -/
theorem Runs.turn {e : EffectId} {g : Graph V R} (hd : st.graph.dequeue? = some (e, g))
    (h : m.Runs (.effect e ()) (st.withGraph g) τ () st')
    (hready : g.Ready (fun b ↦ m.Passive (m.body b)) [e]) :
    st'.graph.queue = g.queue ∧ st.graph.Undisturbed (· = e) τ st'.graph ∧
      (st.graph.isActive e = false ∧ τ = [] ∨ st.graph.isActive e = true ∧ τ.Turn e) := by
  have hactive : g.isActive e = st.graph.isActive e := isActive_dequeue hd e
  cases h with
  | inactive hstopped => exact ⟨rfl, .dequeue _ hd, .inl ⟨hactive.symm.trans hstopped, rfl⟩⟩
  | bodiless ha hnone =>
    obtain ⟨b, hb, -⟩ := hready e (List.mem_singleton_self e) ha
    rw [show (g.effect e).body = none from hnone] at hb
    contradiction
  | @body _ _ b _ _ _ _ ha hbody hinner =>
    obtain ⟨b', hb', hpassive⟩ := hready e (List.mem_singleton_self e) ha
    obtain rfl : b' = b := Option.some.inj (hb'.symm.trans hbody)
    have hcontained := hinner.contained (hpassive _ _ _ _ hinner) rfl
    refine ⟨?_, ?_, .inr ⟨hactive.symm.trans ha, hcontained.level.turn e _ _⟩⟩
    · exact (queue_endRun ..).trans hcontained.queue
    · exact (Undisturbed.dequeue _ hd).trans (hcontained.turn hb' _)

/-- If the queue holds passive code only, then its flush is one sweep over it. -/
theorem Runs.sweep (h : m.Runs (.drain ()) st τ () st') (hqueue : st.graph.queue = es)
    (hready : st.graph.Ready (fun b ↦ m.Passive (m.body b)) es) :
    Sweep es st.graph τ st'.graph := by
  induction es generalizing st τ with
  | nil =>
    cases h with
    | drained => exact .done _
    | drain hd =>
      have hcons := (dequeue?_eq_some hd).1
      rw [hqueue] at hcons
      contradiction
  | cons e es ih =>
    cases h with
    | drained hempty =>
      rw [dequeue?_eq_none_iff.mp hempty] at hqueue
      contradiction
    | drain hd hfirst hrest =>
      obtain ⟨rfl, htail⟩ := List.cons.inj ((dequeue?_eq_some hd).1.symm.trans hqueue)
      have hhead := (hready.undisturbed (.dequeue (fun _ ↦ False) hd)).head
      obtain ⟨hqueue₁, hsame, hcase⟩ := hfirst.turn hd hhead
      have hswept := ih hrest (hqueue₁.trans htail) (hready.tail.undisturbed hsame)
      rcases hcase with ⟨ha, rfl⟩ | ⟨ha, hturn⟩
      · exact .skip ha hsame hswept
      · exact .turn ha hturn hsame hswept

/-- If moreover the bodies end in every state, then so does the flush. -/
theorem exists_drain (hqueue : st.graph.queue = es)
    (hready : st.graph.Ready (fun b ↦ m.Passive (m.body b) ∧ m.Ends (m.body b)) es) :
    ∃ τ st', m.Runs (.drain ()) st τ () st' := by
  induction es generalizing st with
  | nil => exact ⟨[], st, .drained (dequeue?_eq_none_iff.mpr hqueue)⟩
  | cons e es ih =>
    obtain ⟨g, hd⟩ : ∃ g, st.graph.dequeue? = some (e, g) := by
      rw [dequeue?, hqueue]
      exact ⟨_, rfl⟩
    have htail : g.queue = es := (List.cons.inj ((dequeue?_eq_some hd).1.symm.trans hqueue)).2
    have hg := hready.undisturbed (.dequeue (fun _ ↦ False) hd)
    obtain ⟨τ₁, st₁, hfirst⟩ : ∃ τ₁ st₁, m.Runs (.effect e ()) (st.withGraph g) τ₁ () st₁ := by
      cases ha : g.isActive e with
      | false => exact ⟨_, _, .inactive ha⟩
      | true =>
        obtain ⟨b, hb, -, hends⟩ := hg e List.mem_cons_self ha
        obtain ⟨τ₁, _, st₁, hinner⟩ := hends (st.withGraph (g.beginRun e))
        exact ⟨_, _, .body ha hb hinner⟩
    obtain ⟨hqueue₁, hsame, -⟩ := hfirst.turn hd (hg.head.imp fun _ ↦ And.left)
    obtain ⟨τ₂, st', hrest⟩ := ih (hqueue₁.trans htail) (hready.tail.undisturbed hsame)
    exact ⟨_, _, .drain hd hfirst hrest⟩

end Meaning

/-! ## The write -/

namespace Graph

variable {g : Graph V R}

omit [Inhabited V] in
/-- Effects that do not wait yet are put in front of the queue one after the other. -/
theorem queue_foldl_enqueue {es : List EffectId} (hnodup : es.Nodup)
    (hflags : ∀ e ∈ es, (g.effect e).queued = false) :
    (es.foldl enqueue g).queue = es.reverse ++ g.queue := by
  induction es generalizing g with
  | nil => rfl
  | cons e es ih =>
    obtain ⟨hnew, hnodup⟩ := List.nodup_cons.mp hnodup
    obtain ⟨he, hes⟩ := List.forall_mem_cons.mp hflags
    have hqueue : (g.enqueue e).queue = e :: g.queue := by
      rw [enqueue, if_neg (Bool.eq_false_iff.mp he)]
    have hflags' : ∀ e' ∈ es, ((g.enqueue e).effect e').queued = false := by
      intro e' he'
      rw [(effect_enqueue g e e').2.2 fun heq ↦ hnew (heq ▸ he')]
      exact hes e' he'
    rw [List.foldl_cons, ih hnodup hflags', hqueue, List.reverse_cons, List.append_assoc,
      List.singleton_append]

theorem Quiescent.queue_write (h : g.Quiescent) (s : SignalId) (v : V) :
    (g.write s v).queue = (g.activeSubscribers s).reverse := by
  rw [write]
  refine (queue_foldl_enqueue (h.nodup s) ?_).trans ?_
  · exact fun e _ ↦ h.flags e
  · exact (congrArg _ h.queue).trans (List.append_nil _)

end Graph

/-- What the history of a write of `v` to `s` is when it makes one pass over the subscribers, the
last one first. -/
structure SinglePass (m : Meaning V R W Q A) (s : SignalId) (v : V) (st : State V R W)
    (τ : History V R) (st' : State V R W) : Prop where
  /-- No bodies run but those of the subscribers, in the opposite order. -/
  order : τ.begun.Sublist (st.graph.activeSubscribers s).reverse
  once : τ.begun.Nodup
  /-- A subscriber runs exactly if no body that runs before it has stopped it. -/
  begun_iff : ∀ earlier e later,
    (st.graph.activeSubscribers s).reverse = earlier ++ e :: later →
      (e ∈ τ.begun ↔ ∀ e' ∈ earlier, (some e', .stopped e) ∉ τ.acts [])
  /-- Whoever reads the signal, reads what was written. -/
  reads : ∀ n ∈ τ, ∀ v', n.what = .read s v' → v' = v
  subscribers : st'.graph.activeSubscribers s =
    (st.graph.activeSubscribers s).filter st'.graph.isActive
  /-- Whatever code follows: what was stopped before the write does not run in it or afterwards, and
  what is stopped in it or afterwards does not run from there on. -/
  final : ∀ (β : Type) (q : Script V R W Q A β) (τ' : History V R),
    m.Reaches (.script q) st' τ' →
      (∀ e, e.index < st.graph.effects.size → st.graph.isActive e = false →
        e ∉ History.begun (τ ++ τ')) ∧
      ∀ before e g after, τ ++ τ' = before ++ ⟨.stopped e, g⟩ :: after → e ∉ History.begun after

namespace Meaning

variable {m : Meaning V R W Q A} {st st' : State V R W} {τ : History V R}

/-- What is stopped does not run again, in code that runs and in code that follows. -/
theorem Runs.final {p : Script V R W Q A α} {a : α} (h : m.Runs (.script p) st τ a st') {β : Type}
    {q : Script V R W Q A β} {τ' : History V R} (hq : m.Reaches (.script q) st' τ') :
    (∀ e, e.index < st.graph.effects.size → st.graph.isActive e = false →
      e ∉ History.begun (τ ++ τ')) ∧
    ∀ before e g after, τ ++ τ' = before ++ ⟨.stopped e, g⟩ :: after →
      e ∉ History.begun after := by
  let gone (e : EffectId) : Prop := e.index < st.graph.effects.size ∧ st.graph.isActive e = false
  have hstart : History.Final gone [] st.graph := by
    constructor
    · rintro e (he | ⟨_, hn, -⟩)
      · exact he
      · exact absurd hn List.not_mem_nil
    · intro before e g after hsplit
      exact absurd hsplit.symm (List.append_ne_nil_of_right_ne_nil _ (List.cons_ne_nil _ _))
  have hran : History.Final gone τ st'.graph :=
    (h.throughout (History.Final.invariant gone) hstart).2
  obtain ⟨g, hfinal⟩ : ∃ g, History.Final gone (τ ++ τ') g := by
    have hpoints := hq.throughout (History.Final.invariant gone) hran
    rcases List.eq_nil_or_concat τ' with rfl | ⟨τ'', n, rfl⟩
    · exact ⟨_, (List.append_nil τ).symm ▸ hran⟩
    · rw [List.concat_eq_append] at hpoints ⊢
      exact ⟨_, List.append_assoc τ τ'' [n] ▸ hpoints.point⟩
  exact ⟨fun e hlt ha ↦ hfinal.not_mem_begun ⟨hlt, ha⟩,
    fun before e g' after ↦ hfinal.not_mem_begun_of_stopped⟩

/-- The graph at the beginning of the flush: the subscribers wait, with their bodies. -/
theorem ready_of_write {P : R → Prop} {g : Graph V R} (h : g.Quiescent) {s : SignalId}
    (hbodies : ∀ e ∈ g.activeSubscribers s, ∀ b, (g.effect e).body = some b → P b) (v : V) :
    Ready P (g.activeSubscribers s).reverse { g.write s v with flushing := true } := by
  intro e he ha
  have hactive : g.isActive e = true := (isActive_write g s v e).symm.trans ha
  obtain ⟨b, hb⟩ := Option.isSome_iff_exists.mp (h.bodies e hactive)
  exact ⟨b, (body_write g s v e).trans hb, hbodies e (List.mem_reverse.mp he) b hb⟩

/-- A write outside of any flush, with nothing after it. -/
theorem Runs.flush_of_write {s : SignalId} {v : V}
    (h : m.Runs (.script (.write s v (.done ()))) st τ () st')
    (hidle : st.graph.flushing = false) :
    ∃ τ₁ st₁,
      m.Runs (.drain ()) (st.withGraph { st.graph.write s v with flushing := true }) τ₁ () st₁ ∧
      st' = st₁.withGraph { st₁.graph with flushing := false } ∧
      τ = ⟨.wrote s v, st.graph.write s v⟩ ::
        (τ₁ ++ [⟨.settled, { st₁.graph with flushing := false }⟩]) := by
  cases h with
  | step hstep =>
    cases hstep with
    | write _ _ _ _ hflushing => exact absurd (hidle.symm.trans hflushing) Bool.noConfusion
  | write _ hflush hnext =>
    cases hnext with
    | done => exact ⟨_, _, hflush, rfl, rfl⟩
    | step hstep => cases hstep

/-- A write in a quiescent state, whose subscribers are passive. -/
theorem Runs.singlePass {s : SignalId} {v : V}
    (h : m.Runs (.script (.write s v (.done ()))) st τ () st') (hst : st.graph.Quiescent)
    (hs : s.index < st.graph.signals.size)
    (hpassive : ∀ e ∈ st.graph.activeSubscribers s, ∀ b,
      (st.graph.effect e).body = some b → m.Passive (m.body b)) :
    SinglePass m s v st τ st' := by
  have hfinal := fun (β : Type) (q : Script V R W Q A β) (τ' : History V R)
    (hq : m.Reaches (.script q) st' τ') ↦ h.final hq
  obtain ⟨τ₁, st₁, hflush, rfl, rfl⟩ := h.flush_of_write hst.flushing
  have hsweep := hflush.sweep (hst.queue_write s v) (ready_of_write hst hpassive v)
  have hsame := hsweep.undisturbed
  have hs' : s.index < (st.graph.write s v).signals.size :=
    Nat.lt_of_lt_of_eq hs (size_signals_write ..).symm
  -- what the write and the end of the flush add to the history is no turn of anybody
  have hbegun (g g' : Graph V R) :
      History.begun (⟨.wrote s v, g⟩ :: (τ₁ ++ [⟨.settled, g'⟩])) = τ₁.begun :=
    (τ₁.begun_append _).trans (List.append_nil _)
  have hacts (g g' : Graph V R) (e e' : EffectId) :
      (some e', .stopped e) ∈ History.acts [] (⟨.wrote s v, g⟩ :: (τ₁ ++ [⟨.settled, g'⟩])) ↔
        (some e', .stopped e) ∈ τ₁.acts [] := by
    have hall : History.acts [] (⟨.wrote s v, g⟩ :: (τ₁ ++ [⟨.settled, g'⟩])) =
        (none, .wrote s v) :: (τ₁.acts [] ++ [((τ₁.running []).head?, .settled)]) :=
      congrArg (_ :: ·) (History.acts_append ..)
    simp [hall]
  constructor
  case order =>
    rw [hbegun]
    exact hsweep.begun_sublist
  case once =>
    rw [hbegun]
    exact hsweep.begun_sublist.nodup (List.nodup_reverse.mpr (hst.nodup s))
  case begun_iff =>
    intro earlier e later hsplit
    have he : e ∈ st.graph.activeSubscribers s :=
      List.mem_reverse.mp (hsplit ▸ List.mem_append_right _ List.mem_cons_self)
    have hactive : (st.graph.write s v).isActive e = true :=
      (isActive_write ..).trans (List.mem_filter.mp he).2
    rw [hbegun, hsweep.mem_begun_iff (List.nodup_reverse.mpr (hst.nodup s)) hsplit]
    simp only [hacts]
    exact and_iff_right hactive
  case reads =>
    intro n hn v' hread
    have hτ₁ : n ∈ τ₁ := by
      rcases List.mem_cons.mp hn with rfl | hn
      · contradiction
      · rcases List.mem_append.mp hn with hn | hn
        · exact hn
        · rw [List.mem_singleton.mp hn] at hread
          contradiction
    exact (hsame.read n hτ₁ s v' hread hs').trans (value_write_self st.graph hs v)
  case subscribers =>
    have hwritten : ((st.graph.write s v).signal s).subscribers = st.graph.activeSubscribers s := by
      rw [signal_of_modify _ _ s _ (signals_write st.graph s v), if_pos ⟨rfl, hs⟩]
    have hkept : (st₁.graph.signal s).subscribers = st.graph.activeSubscribers s := by
      refine (hsame.subscribers s hs' fun e he ↦ ?_).trans hwritten
      exact hwritten.symm ▸ List.mem_reverse.mp he
    exact congrArg (List.filter st₁.graph.isActive) hkept
  case final => exact hfinal

/-- **One write runs each subscriber once.** Take any state that code leaves behind on a new graph,
and a signal whose active subscribers are passive. If a write to the signal returns, then its flush
has been a single pass; and it does return if the bodies of the subscribers end. -/
theorem write_singlePass (m : Meaning V R W Q A) {fuel₀ : Nat} {p : Script V R W Q A α} {w : W}
    {a : α} {st : State V R W} {s : SignalId}
    (hp : m.run fuel₀ p ⟨.empty, w⟩ = some (a, st)) (hs : s.index < st.graph.signals.size)
    (hpassive : ∀ e ∈ st.graph.activeSubscribers s, ∀ b,
      (st.graph.effect e).body = some b → m.Passive (m.body b)) (v : V) :
    (∀ fuel st', m.run fuel (.write s v (.done ())) st = some ((), st') →
      ∃ τ, m.Runs (.script (.write s v (.done ()))) st τ () st' ∧ SinglePass m s v st τ st') ∧
    ((∀ e ∈ st.graph.activeSubscribers s, ∀ b,
        (st.graph.effect e).body = some b → m.Ends (m.body b)) →
      ∃ fuel st', m.run fuel (.write s v (.done ())) st = some ((), st')) := by
  have hst := m.quiescent_of_run hp
  constructor
  · intro fuel st' hrun
    obtain ⟨τ, hτ⟩ := exists_fuel_iff.mp ⟨fuel, hrun⟩
    exact ⟨τ, hτ, hτ.singlePass hst hs hpassive⟩
  · intro hends
    have hready : Ready (fun b ↦ m.Passive (m.body b) ∧ m.Ends (m.body b))
        (st.graph.activeSubscribers s).reverse { st.graph.write s v with flushing := true } :=
      ready_of_write hst (fun e he b hb ↦ ⟨hpassive e he b hb, hends e he b hb⟩) v
    have hqueue : (st.withGraph { st.graph.write s v with flushing := true }).graph.queue =
        (st.graph.activeSubscribers s).reverse := hst.queue_write s v
    obtain ⟨τ, st₁, hflush⟩ := exists_drain hqueue hready
    obtain ⟨fuel, hrun⟩ := exists_fuel_iff.mpr ⟨_, Runs.write hst.flushing hflush (.done () _)⟩
    exact ⟨fuel, _, hrun⟩

/-! ### A subscriber that stops another -/

theorem Passive.done (m : Meaning V R W Q A) (a : α) : m.Passive (.done a) := by
  intro st τ a' st' h
  cases h with
  | done => exact List.forall_mem_nil _
  | step hstep => cases hstep

theorem Passive.read {s : SignalId} {k : V → Script V R W Q A α} (h : ∀ v, m.Passive (k v)) :
    m.Passive (.read s k) := by
  intro st τ a st' hrun
  cases hrun with
  | step hstep hnext =>
    cases hstep with
    | read => exact List.forall_mem_cons.mpr ⟨rfl, h _ _ _ _ _ hnext⟩
    | readNothing => exact h _ _ _ _ _ hnext

theorem Passive.stop {e : EffectId} {k : Script V R W Q A α} (h : m.Passive k) :
    m.Passive (.stop e k) := by
  intro st τ a st' hrun
  cases hrun with
  | step hstep hnext =>
    cases hstep with
    | stop => exact List.forall_mem_cons.mpr ⟨rfl, h _ _ _ _ hnext⟩
    | stopNothing => exact h _ _ _ _ hnext

/-- Two bodies that read the first signal; one of them stops the first effect unless it reads
zero. -/
def warden : Meaning Nat Bool Unit Empty fun _ ↦ Unit where
  body stops := .read ⟨0⟩ fun v ↦ if stops && v != 0 then .stop ⟨0⟩ (.done ()) else .done ()
  call q := nomatch q

/-- Two subscribers, of which the second stops the first. -/
def wardenReady : State Nat Bool Unit :=
  ((warden.run 2 (.newSignal 0 fun _ ↦ .effect false fun _ ↦ .effect true fun _ ↦ .done ())
    ⟨.empty, ()⟩).get rfl).2

theorem warden_passive (b : Bool) : warden.Passive (warden.body b) := by
  refine .read fun v ↦ ?_
  split
  · exact .stop (.done warden ())
  · exact .done warden ()

theorem warden_ends (b : Bool) : warden.Ends (warden.body b) := by
  intro st
  have hrun : ∃ x, warden.run 0 (warden.body b) st = some x := by
    cases b <;> simp only [warden, Meaning.run, Runner.run] <;> split <;> exact ⟨_, rfl⟩
  obtain ⟨⟨a, st'⟩, hrun⟩ := hrun
  obtain ⟨τ, hτ⟩ := exists_fuel_iff.mp ⟨0, hrun⟩
  exact ⟨τ, a, st', hτ⟩

/-- A write of what is not zero to the signal of both returns, after a single pass. -/
theorem warden_singlePass :
    ∃ fuel st' τ, warden.run fuel (.write ⟨0⟩ 5 (.done ())) wardenReady = some ((), st') ∧
      SinglePass warden ⟨0⟩ 5 wardenReady τ st' := by
  have hready : warden.run 2
      (.newSignal 0 fun _ ↦ .effect false fun _ ↦ .effect true fun _ ↦ .done ()) ⟨.empty, ()⟩ =
        some ((), wardenReady) := rfl
  have hsignal : 0 < wardenReady.graph.signals.size := Nat.lt_succ_self 0
  obtain ⟨hsingle, hends⟩ := write_singlePass (s := ⟨0⟩) warden hready hsignal
    (fun e _ b _ ↦ warden_passive b) 5
  obtain ⟨fuel, st', hrun⟩ := hends fun e _ b _ ↦ warden_ends b
  obtain ⟨τ, -, hτ⟩ := hsingle fuel st' hrun
  exact ⟨fuel, st', τ, hrun, hτ⟩

end Meaning

end LiveMarkup
