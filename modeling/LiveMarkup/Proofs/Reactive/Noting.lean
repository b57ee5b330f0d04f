import LiveMarkup.Proofs.Reactive.Beside
import LiveMarkup.Proofs.Reactive.Visits

/-!
# Scripts that take notes

If bodies and calls do, apart from notes, what they do without them (`Meaning.Notes`), then each
run of the plain script is one of the script that takes notes (`Meaning.Notes.runs`), and wherever
the plain script comes to, the other one comes to with notes beside it (`Meaning.Notes.visits`). So
what holds of the world and the notes at every state of the one says something about every state of
the other, whether or not the code ever ends.
-/

namespace LiveMarkup

variable {V R W D Q : Type} {A : Q → Type} {α : Type}
  [Inhabited V] {m' : Meaning V R (W × D) Q A} {m : Meaning V R W Q A}

/-! ## Where code ends -/

/-- Whether bodies and calls do what they do in another meaning, and otherwise only take notes. -/
structure Meaning.Notes (m' : Meaning V R (W × D) Q A) (m : Meaning V R W Q A) : Prop where
  body : ∀ b, (m'.body b).Notes (m.body b)
  call : ∀ q, (m'.call q).Notes (m.call q)

theorem Meaning.Notes.mirrors (h : m'.Notes m) (fuel : Nat) :
    (m'.runner fuel).Mirrors (m.runner fuel) :=
  Meaning.mirrors_runner (fun _ _ _ hr b ↦ hr.notes (h.body b))
    (fun _ _ _ hr q ↦ hr.notes (h.call q)) fuel

/-- Whether a job does what another does, and otherwise only takes notes. -/
inductive Job.Notes : Job V R (W × D) Q A α → Job V R W Q A α → Prop where
  | script {p' : Script V R (W × D) Q A α} {p : Script V R W Q A α} (notes : p'.Notes p) :
      Notes (.script p') (.script p)
  | effect (e : EffectId) (a : α) : Notes (.effect e a) (.effect e a)
  | drain (a : α) : Notes (.drain a) (.drain a)

theorem Meaning.exists_runs_of_carry {j : Job V R W Q A α} {st st' : State V R W} {a : α}
    {fuel : Nat} (h : j.carry (m.runner fuel) fuel st = some (a, st')) :
    ∃ τ, m.Runs j st τ a st' := by
  cases j with
  | script p => exact (m.traces_runner fuel).run h
  | effect e a =>
    obtain ⟨st₁, hrun, heq⟩ := Option.map_eq_some_iff.mp h
    obtain ⟨rfl, rfl⟩ := Prod.mk.inj heq
    exact (m.traces_runner fuel).runEffect hrun a
  | drain a =>
    obtain ⟨st₁, hrun, heq⟩ := Option.map_eq_some_iff.mp h
    obtain ⟨rfl, rfl⟩ := Prod.mk.inj heq
    exact (m.traces_runner fuel).drain hrun a

namespace Meaning.Notes

variable {m' : Meaning V R (W × D) Q A} {j' : Job V R (W × D) Q A α}
  {j : Job V R W Q A α} {st st' : State V R W} {τ : History V R} {a : α}

theorem carry (hm : m'.Notes m) (hj : j'.Notes j) (fuel : Nat) (st : State V R (W × D)) :
    (j'.carry (m'.runner fuel) fuel st).map (Prod.map id State.bare) =
      j.carry (m.runner fuel) fuel st.bare := by
  have hmirrors := hm.mirrors fuel
  cases hj with
  | script hp => exact hmirrors.notes hp st
  | effect e a =>
    rw [Job.carry, Job.carry, ← hmirrors.runEffect, Option.map_map, Option.map_map]
    rfl
  | drain a =>
    rw [Job.carry, Job.carry, ← hmirrors.drain, Option.map_map, Option.map_map]
    rfl

/-- Where a job ends, it ends with notes too. -/
theorem runs (hm : m'.Notes m) (hj : j'.Notes j) (h : m.Runs j st τ a st') (d : D) :
    ∃ τ' d', m'.Runs j' (st.beside d) τ' a (st'.beside d') := by
  obtain ⟨fuel, hcarry⟩ := h.exists_carry
  obtain ⟨x, hx, heq⟩ := Option.map_eq_some_iff.mp ((hm.carry hj fuel (st.beside d)).trans hcarry)
  obtain ⟨rfl, rfl⟩ := Prod.mk.inj heq
  obtain ⟨τ', hτ'⟩ := exists_runs_of_carry hx
  exact ⟨τ', x.2.world.2, hτ'⟩

/-- A run of the plain script is one of the script that takes notes, with the same fuel. -/
theorem exists_run (hm : m'.Notes m) {p' : Script V R (W × D) Q A α} {p : Script V R W Q A α}
    (hp : p'.Notes p) {fuel : Nat} (hrun : m.run fuel p st = some (a, st')) (d : D) :
    ∃ d', m'.run fuel p' (st.beside d) = some (a, st'.beside d') := by
  have hcarry := (hm.carry (.script hp) fuel (st.beside d)).trans hrun
  obtain ⟨x, hx, heq⟩ := Option.map_eq_some_iff.mp hcarry
  obtain ⟨rfl, rfl⟩ := Prod.mk.inj heq
  exact ⟨x.2.world.2, hx⟩

end Meaning.Notes

/-! ## Where code comes to -/

namespace Meaning.Visits

variable {m' : Meaning V R (W × D) Q A} {st st₁ : State V R W} {τ : History V R}
  {p' : Script V R (W × D) Q A α} {p p₁ : Script V R W Q A α}

/-- A note is passed over. -/
theorem note {f : W × D → W × D} (hsame : ∀ x, (f x).1 = x.1) {d : D}
    {st' : State V R (W × D)}
    (h : m'.Visits (.script p') (st.beside (f (st.world, d)).2) st') :
    m'.Visits (.script (.change f p')) (st.beside d) st' := by
  have hst : { st.beside d with world := f (st.beside d).world } =
      st.beside (f (st.world, d)).2 :=
    congrArg (State.mk st.graph) (Prod.ext (hsame (st.world, d)) rfl)
  exact .step (.change f p' (st.beside d)) (hst ▸ h)

theorem exists_step (hp : p'.Notes p) (h : p.Step st τ p₁ st₁) (d : D) :
    ∃ p₁' d', Script.Notes p₁' p₁ ∧ ∀ st', m'.Visits (.script p₁') (st₁.beside d') st' →
      m'.Visits (.script p') (st.beside d) st' := by
  induction hp generalizing st st₁ d with
  | done a => cases h
  | look hnext =>
    cases h
    exact ⟨_, d, hnext _ _, fun st' ↦ .step (.look _ _)⟩
  | @change f' f _ _ hsame hnext =>
    cases h
    refine ⟨_, (f' (st.world, d)).2, hnext, fun st' hst' ↦ .step (.change f' _ _) ?_⟩
    have hst : { st.beside d with world := f' (st.beside d).world } =
        State.beside { st with world := f st.world } (f' (st.world, d)).2 :=
      congrArg (State.mk st.graph) (Prod.ext (hsame (st.world, d)) rfl)
    exact hst ▸ hst'
  | newSignal v hnext =>
    cases h
    exact ⟨_, d, hnext _, fun st' ↦ .step (.newSignal v _ _)⟩
  | read s hnext =>
    cases h with
    | read _ _ _ hs => exact ⟨_, d, hnext _, fun st' ↦ .step (.read s _ _ hs)⟩
    | readNothing _ _ _ hs => exact ⟨_, d, hnext _, fun st' ↦ .step (.readNothing s _ _ hs)⟩
  | write s v hnext =>
    cases h with
    | write _ _ _ _ hf => exact ⟨_, d, hnext, fun st' ↦ .step (.write s v _ _ hf)⟩
  | effect b hnext => cases h
  | stop e hnext =>
    cases h with
    | stop _ _ _ he => exact ⟨_, d, hnext, fun st' ↦ .step (.stop e _ _ he)⟩
    | stopNothing _ _ _ he => exact ⟨_, d, hnext, fun st' ↦ .step (.stopNothing e _ _ he)⟩
  | call q hnext => cases h
  | note hsame _ ih =>
    obtain ⟨p₁', d', hnotes, hvisits⟩ := ih h _
    exact ⟨p₁', d', hnotes, fun st' hst' ↦ .note hsame (hvisits st' hst')⟩

theorem exists_write {s : SignalId} {v : V} {k : Script V R W Q A α} :
    {p' : Script V R (W × D) Q A α} → p'.Notes (.write s v k) → (d : D) → ∃ k' d',
      Script.Notes k' k ∧ ∀ st', m'.Visits (.script (.write s v k')) (st.beside d') st' →
        m'.Visits (.script p') (st.beside d) st'
  | _, .write _ _ hnext, d => ⟨_, d, hnext, fun _ h ↦ h⟩
  | _, .note hsame hnext, d => by
    obtain ⟨k', d', hnotes, hvisits⟩ := exists_write hnext _
    exact ⟨k', d', hnotes, fun st' hst' ↦ .note hsame (hvisits st' hst')⟩

theorem exists_effect {b : R} {k : EffectId → Script V R W Q A α} :
    {p' : Script V R (W × D) Q A α} → p'.Notes (.effect b k) → (d : D) → ∃ k' d',
      (∀ e, Script.Notes (k' e) (k e)) ∧
        ∀ st', m'.Visits (.script (.effect b k')) (st.beside d') st' →
          m'.Visits (.script p') (st.beside d) st'
  | _, .effect _ hnext, d => ⟨_, d, hnext, fun _ h ↦ h⟩
  | _, .note hsame hnext, d => by
    obtain ⟨k', d', hnotes, hvisits⟩ := exists_effect hnext _
    exact ⟨k', d', hnotes, fun st' hst' ↦ .note hsame (hvisits st' hst')⟩

theorem exists_call {q : Q} {k : A q → Script V R W Q A α} :
    {p' : Script V R (W × D) Q A α} → p'.Notes (.call q k) → (d : D) → ∃ k' d',
      (∀ a, Script.Notes (k' a) (k a)) ∧
        ∀ st', m'.Visits (.script (.call q k')) (st.beside d') st' →
          m'.Visits (.script p') (st.beside d) st'
  | _, .call _ hnext, d => ⟨_, d, hnext, fun _ h ↦ h⟩
  | _, .note hsame hnext, d => by
    obtain ⟨k', d', hnotes, hvisits⟩ := exists_call hnext _
    exact ⟨k', d', hnotes, fun st' hst' ↦ .note hsame (hvisits st' hst')⟩

end Meaning.Visits

/-- Wherever a job comes to, it comes to with notes too. -/
theorem Meaning.Notes.visits (hm : m'.Notes m) {j' : Job V R (W × D) Q A α}
    {j : Job V R W Q A α} {st st' : State V R W} (h : m.Visits j st st') (hj : j'.Notes j) (d : D) :
    ∃ d', m'.Visits j' (st.beside d) (st'.beside d') := by
  induction h generalizing d with
  | start => exact ⟨d, .start _ _⟩
  | all hruns =>
    obtain ⟨τ', d', hruns'⟩ := hm.runs hj hruns d
    exact ⟨d', .all hruns'⟩
  | step hstep _ ih =>
    cases hj with | script hp
    obtain ⟨p₁', d₁, hp₁, hvisits⟩ := Meaning.Visits.exists_step hp hstep d
    obtain ⟨d', hrest⟩ := ih (.script hp₁) d₁
    exact ⟨d', hvisits _ hrest⟩
  | flush hidle _ ih =>
    cases hj with | script hp
    obtain ⟨k', d₁, hk, hvisits⟩ := Meaning.Visits.exists_write hp d
    obtain ⟨d', hdrain⟩ := ih (.drain ()) d₁
    exact ⟨d', hvisits _ (.flush hidle hdrain)⟩
  | write hidle hdrain _ ih =>
    cases hj with | script hp
    obtain ⟨k', d₁, hk, hvisits⟩ := Meaning.Visits.exists_write hp d
    obtain ⟨τ', d₂, hdrain'⟩ := hm.runs (.drain ()) hdrain d₁
    obtain ⟨d', hrest⟩ := ih (.script hk) d₂
    exact ⟨d', hvisits _ (.write hidle hdrain' hrest)⟩
  | first _ ih =>
    cases hj with | script hp
    obtain ⟨k', d₁, hk, hvisits⟩ := Meaning.Visits.exists_effect hp d
    obtain ⟨d', hfirst⟩ := ih (.effect _ ()) d₁
    exact ⟨d', hvisits _ (.first hfirst)⟩
  | effect hfirst _ ih =>
    cases hj with | script hp
    obtain ⟨k', d₁, hk, hvisits⟩ := Meaning.Visits.exists_effect hp d
    obtain ⟨τ', d₂, hfirst'⟩ := hm.runs (.effect _ ()) hfirst d₁
    obtain ⟨d', hrest⟩ := ih (.script (hk _)) d₂
    exact ⟨d', hvisits _ (.effect hfirst' hrest)⟩
  | answer _ ih =>
    cases hj with | script hp
    obtain ⟨k', d₁, hk, hvisits⟩ := Meaning.Visits.exists_call hp d
    obtain ⟨d', hanswer⟩ := ih (.script (hm.call _)) d₁
    exact ⟨d', hvisits _ (.answer hanswer)⟩
  | call hanswer _ ih =>
    cases hj with | script hp
    obtain ⟨k', d₁, hk, hvisits⟩ := Meaning.Visits.exists_call hp d
    obtain ⟨τ', d₂, hanswer'⟩ := hm.runs (.script (hm.call _)) hanswer d₁
    obtain ⟨d', hrest⟩ := ih (.script (hk _)) d₂
    exact ⟨d', hvisits _ (.call hanswer' hrest)⟩
  | body ha hb _ ih =>
    cases hj with | effect
    obtain ⟨d', hinner⟩ := ih (.script (hm.body _)) d
    exact ⟨d', .body ha hb hinner⟩
  | next hd _ ih =>
    cases hj with | drain
    obtain ⟨d', hfirst⟩ := ih (.effect _ ()) d
    exact ⟨d', .next hd hfirst⟩
  | drain hd hfirst _ ih =>
    cases hj with | drain
    obtain ⟨τ', d₁, hfirst'⟩ := hm.runs (.effect _ ()) hfirst d
    obtain ⟨d', hrest⟩ := ih (.drain _) d₁
    exact ⟨d', .drain hd hfirst' hrest⟩

end LiveMarkup
