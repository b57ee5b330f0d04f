import LiveMarkup.Proofs.Reactive.History

/-!
# What holds wherever code comes to

Code need not end, and what it is in the middle of is not to be seen from its ends.
`Meaning.Visits` gives the states that code comes to, at whatever depth; of the parts of a job that
follow each other, those before the last are over.

To show that something holds of the world in all these states one looks at the code once, from each
world it can find itself in: every change has to keep it, and wherever bodies and calls may run they
are assumed to keep it too, and to leave what they have promised to leave (`Script.Respects`). That
is enough if the bodies and calls themselves are such code (`Meaning.Runs.respects`,
`Meaning.Visits.respects`).
-/

namespace LiveMarkup

variable {V R W Q : Type} {A : Q → Type} {α β : Type}

/-! ## Visited states -/

/-- Whether code comes to a state while a job is carried out, whether or not it ever ends. -/
inductive Meaning.Visits [Inhabited V] (m : Meaning V R W Q A) : {α : Type} → Job V R W Q A α →
    State V R W → State V R W → Prop where
  | start {α : Type} (j : Job V R W Q A α) (st : State V R W) : m.Visits j st st
  | all {α : Type} {j : Job V R W Q A α} {st st' : State V R W} {τ : History V R} {a : α}
      (runs : m.Runs j st τ a st') : m.Visits j st st'
  | step {α : Type} {p p' : Script V R W Q A α} {st st₁ st' : State V R W} {τ : History V R}
      (first : p.Step st τ p' st₁) (next : m.Visits (.script p') st₁ st') :
      m.Visits (.script p) st st'
  | flush {α : Type} {s : SignalId} {v : V} {k : Script V R W Q A α} {st st' : State V R W}
      (idle : st.graph.flushing = false)
      (flush : m.Visits (.drain ()) (st.withGraph { st.graph.write s v with flushing := true })
        st') :
      m.Visits (.script (.write s v k)) st st'
  | write {α : Type} {s : SignalId} {v : V} {k : Script V R W Q A α} {st st₁ st' : State V R W}
      {τ : History V R} (idle : st.graph.flushing = false)
      (flush : m.Runs (.drain ()) (st.withGraph { st.graph.write s v with flushing := true })
        τ () st₁)
      (next : m.Visits (.script k) (st₁.withGraph { st₁.graph with flushing := false }) st') :
      m.Visits (.script (.write s v k)) st st'
  | first {α : Type} {b : R} {k : EffectId → Script V R W Q A α} {st st' : State V R W}
      (first : m.Visits (.effect (st.graph.newEffect b).1 ())
        (st.withGraph (st.graph.newEffect b).2) st') :
      m.Visits (.script (.effect b k)) st st'
  | effect {α : Type} {b : R} {k : EffectId → Script V R W Q A α} {st st₁ st' : State V R W}
      {τ : History V R}
      (first : m.Runs (.effect (st.graph.newEffect b).1 ())
        (st.withGraph (st.graph.newEffect b).2) τ () st₁)
      (next : m.Visits (.script (k (st.graph.newEffect b).1)) st₁ st') :
      m.Visits (.script (.effect b k)) st st'
  | answer {α : Type} {q : Q} {k : A q → Script V R W Q A α} {st st' : State V R W}
      (answer : m.Visits (.script (m.call q)) st st') : m.Visits (.script (.call q k)) st st'
  | call {α : Type} {q : Q} {k : A q → Script V R W Q A α} {st st₁ st' : State V R W}
      {τ : History V R} {x : A q} (answer : m.Runs (.script (m.call q)) st τ x st₁)
      (next : m.Visits (.script (k x)) st₁ st') : m.Visits (.script (.call q k)) st st'
  | body {α : Type} {e : EffectId} {b : R} {a : α} {st st' : State V R W}
      (active : st.graph.isActive e = true) (has_body : (st.graph.effect e).body = some b)
      (inner : m.Visits (.script (m.body b)) (st.withGraph (st.graph.beginRun e)) st') :
      m.Visits (.effect e a) st st'
  | next {α : Type} {e : EffectId} {g : Graph V R} {a : α} {st st' : State V R W}
      (next : st.graph.dequeue? = some (e, g))
      (first : m.Visits (.effect e ()) (st.withGraph g) st') : m.Visits (.drain a) st st'
  | drain {α : Type} {e : EffectId} {g : Graph V R} {a : α} {st st₁ st' : State V R W}
      {τ : History V R} (next : st.graph.dequeue? = some (e, g))
      (first : m.Runs (.effect e ()) (st.withGraph g) τ () st₁)
      (rest : m.Visits (.drain a) st₁ st') : m.Visits (.drain a) st st'

/-! ## What is watched -/

/-- What is watched in the world while code runs. -/
structure Watch (W : Type) where
  /-- What holds wherever code comes to. -/
  holds : W → Prop
  /-- Where bodies and calls may run. -/
  admits : W → Prop
  /-- What bodies and calls leave, from their beginning to their end. -/
  leaves : W → W → Prop

/-- Whether a script keeps what is watched, if bodies and calls do, and what holds at its end. -/
def Script.Respects (ω : Watch W) (post : α → W → Prop) : Script V R W Q A α → W → Prop
  | .done a, w => post a w
  | .look k, w => ∀ g, (k g w).Respects ω post w
  | .change f k, w => ω.holds (f w) ∧ k.Respects ω post (f w)
  | .newSignal _ k, w => ∀ s, (k s).Respects ω post w
  | .read _ k, w => ∀ v, (k v).Respects ω post w
  | .write _ _ k, w => ω.admits w ∧ ∀ w', ω.holds w' → ω.leaves w w' → k.Respects ω post w'
  | .effect _ k, w =>
    ω.admits w ∧ ∀ e w', ω.holds w' → ω.leaves w w' → (k e).Respects ω post w'
  | .stop _ k, w => k.Respects ω post w
  | .call _ k, w =>
    ω.admits w ∧ ∀ a w', ω.holds w' → ω.leaves w w' → (k a).Respects ω post w'

/-- Whether a job keeps what is watched, and what holds at its end. -/
def Job.Respects (ω : Watch W) (post : α → W → Prop) : Job V R W Q A α → W → Prop
  | .script p, w => p.Respects ω post w
  | .effect _ a, w | .drain a, w =>
    ω.admits w ∧ ∀ w', ω.holds w' → ω.leaves w w' → post a w'

theorem Job.respects_effect {ω : Watch W} {w : W} (h : ω.admits w) (e : EffectId) (a : α) :
    (Job.effect e a : Job V R W Q A α).Respects ω (fun _ ↦ ω.leaves w) w :=
  ⟨h, fun _ _ hleaves ↦ hleaves⟩

theorem Job.respects_drain {ω : Watch W} {w : W} (h : ω.admits w) (a : α) :
    (Job.drain a : Job V R W Q A α).Respects ω (fun _ ↦ ω.leaves w) w :=
  ⟨h, fun _ _ hleaves ↦ hleaves⟩

theorem Script.respects_bind {ω : Watch W} {post : β → W → Prop} (p : Script V R W Q A α)
    (f : α → Script V R W Q A β) (w : W) :
    (p.bind f).Respects ω post w ↔ p.Respects ω (fun a ↦ (f a).Respects ω post) w := by
  induction p generalizing w with
  | done a => rfl
  | look k ih => exact forall_congr' fun g ↦ ih g w w
  | change h k ih => exact and_congr_right fun _ ↦ ih _
  | newSignal v k ih => exact forall_congr' fun s ↦ ih s w
  | read s k ih => exact forall_congr' fun v ↦ ih v w
  | write s v k ih => exact and_congr_right fun _ ↦ forall₃_congr fun w' _ _ ↦ ih w'
  | effect b k ih => exact and_congr_right fun _ ↦ forall₄_congr fun e w' _ _ ↦ ih e w'
  | stop e k ih => exact ih w
  | call q k ih => exact and_congr_right fun _ ↦ forall₄_congr fun a w' _ _ ↦ ih a w'

/-- Whether bodies and calls keep what is watched wherever they may run, and leave what they have
to. -/
structure Meaning.Respects (m : Meaning V R W Q A) (ω : Watch W) : Prop where
  refl : ∀ w, ω.leaves w w
  trans : ∀ w w' w'', ω.leaves w w' → ω.leaves w' w'' → ω.leaves w w''
  admits : ∀ w w', ω.admits w → ω.leaves w w' → ω.admits w'
  body : ∀ b w, ω.holds w → ω.admits w → (m.body b).Respects ω (fun _ ↦ ω.leaves w) w
  call : ∀ q w, ω.holds w → ω.admits w → (m.call q).Respects ω (fun _ ↦ ω.leaves w) w

variable [Inhabited V] {m : Meaning V R W Q A} {ω : Watch W}

theorem Script.Step.respects (hm : m.Respects ω) {p p' : Script V R W Q A α}
    {st st' : State V R W} {τ : History V R} (h : p.Step st τ p' st') {post : α → W → Prop}
    (hst : ω.holds st.world) (hp : p.Respects ω post st.world) :
    ω.holds st'.world ∧ p'.Respects ω post st'.world := by
  cases h with
  | look => exact ⟨hst, hp _⟩
  | change => exact hp
  | newSignal => exact ⟨hst, hp _⟩
  | read | readNothing => exact ⟨hst, hp _⟩
  | write => exact ⟨hst, hp.2 _ hst (hm.refl _)⟩
  | stop | stopNothing => exact ⟨hst, hp⟩

namespace Meaning

variable {j : Job V R W Q A α} {st st' : State V R W} {τ : History V R} {a : α}

/-- **Where a job ends, what is watched holds**, and what the job says of its end. -/
theorem Runs.respects (hm : m.Respects ω) (h : m.Runs j st τ a st') {post : α → W → Prop}
    (hst : ω.holds st.world) (hj : j.Respects ω post st.world) :
    ω.holds st'.world ∧ post a st'.world := by
  induction h with
  | done => exact ⟨hst, hj⟩
  | step hstep _ ih =>
    obtain ⟨hst₁, hp⟩ := hstep.respects hm hst hj
    exact ih hst₁ hp
  | write _ _ _ ih₁ ih₂ =>
    obtain ⟨hst₁, hleaves⟩ := ih₁ hst (Job.respects_drain hj.1 ())
    exact ih₂ hst₁ (hj.2 _ hst₁ hleaves)
  | effect _ _ ih₁ ih₂ =>
    obtain ⟨hst₁, hleaves⟩ := ih₁ hst (Job.respects_effect hj.1 _ ())
    exact ih₂ hst₁ (hj.2 _ _ hst₁ hleaves)
  | call _ _ ih₁ ih₂ =>
    obtain ⟨hst₁, hleaves⟩ := ih₁ hst (hm.call _ _ hst hj.1)
    exact ih₂ hst₁ (hj.2 _ _ hst₁ hleaves)
  | inactive | bodiless | drained => exact ⟨hst, hj.2 _ hst (hm.refl _)⟩
  | body _ _ _ ih =>
    obtain ⟨hst₁, hleaves⟩ := ih hst (hm.body _ _ hst hj.1)
    exact ⟨hst₁, hj.2 _ hst₁ hleaves⟩
  | drain _ _ _ ih₁ ih₂ =>
    obtain ⟨hst₁, hleaves⟩ := ih₁ hst (Job.respects_effect hj.1 _ ())
    exact ih₂ hst₁ ⟨hm.admits _ _ hj.1 hleaves, fun w' hw' hleaves' ↦
      hj.2 w' hw' (hm.trans _ _ _ hleaves hleaves')⟩

/-- **Wherever a job comes to, what is watched holds.** -/
theorem Visits.respects (hm : m.Respects ω) (h : m.Visits j st st') {post : α → W → Prop}
    (hst : ω.holds st.world) (hj : j.Respects ω post st.world) : ω.holds st'.world := by
  induction h with
  | start => exact hst
  | all hruns => exact (hruns.respects hm hst hj).1
  | step hstep _ ih =>
    obtain ⟨hst₁, hp⟩ := hstep.respects hm hst hj
    exact ih hst₁ hp
  | flush _ _ ih => exact ih hst (Job.respects_drain hj.1 ())
  | write _ hdrain _ ih =>
    obtain ⟨hst₁, hleaves⟩ := hdrain.respects hm hst (Job.respects_drain hj.1 ())
    exact ih hst₁ (hj.2 _ hst₁ hleaves)
  | first _ ih => exact ih hst (Job.respects_effect hj.1 _ ())
  | effect hfirst _ ih =>
    obtain ⟨hst₁, hleaves⟩ := hfirst.respects hm hst (Job.respects_effect hj.1 _ ())
    exact ih hst₁ (hj.2 _ _ hst₁ hleaves)
  | answer _ ih => exact ih hst (hm.call _ _ hst hj.1)
  | call hanswer _ ih =>
    obtain ⟨hst₁, hleaves⟩ := hanswer.respects hm hst (hm.call _ _ hst hj.1)
    exact ih hst₁ (hj.2 _ _ hst₁ hleaves)
  | body _ _ _ ih => exact ih hst (hm.body _ _ hst hj.1)
  | next _ _ ih => exact ih hst (Job.respects_effect hj.1 _ ())
  | drain _ hfirst _ ih =>
    obtain ⟨hst₁, hleaves⟩ := hfirst.respects hm hst (Job.respects_effect hj.1 _ ())
    exact ih hst₁ ⟨hm.admits _ _ hj.1 hleaves, fun w' hw' hleaves' ↦
      hj.2 w' hw' (hm.trans _ _ _ hleaves hleaves')⟩

end Meaning

end LiveMarkup
