import LiveMarkup.Proofs.Reactive.Run

/-!
# More fuel

Fuel says how far a run goes, not where: a script that ends with some fuel ends with any larger
amount, with the same answer and in the same state (`Meaning.run_mono`). A runner extends another
where it carries out all that the other does, and in the same way (`Runner.Extends`).
-/

namespace LiveMarkup

variable {V R W Q : Type} {A : Q → Type} {α : Type}

namespace Runner

/-- Whether a runner carries out what another one does. -/
structure Extends (r r' : Runner V R W Q A) : Prop where
  body : ∀ b st st', r.body b st = some st' → r'.body b st = some st'
  call : ∀ q st x, r.call q st = some x → r'.call q st = some x

theorem extends_exhausted (r : Runner V R W Q A) : exhausted.Extends r :=
  ⟨fun _ _ st' h ↦ absurd h.symm (Option.some_ne_none st'),
    fun _ _ x h ↦ absurd h.symm (Option.some_ne_none x)⟩

namespace Extends

variable {r r' : Runner V R W Q A} {limit limit' : Nat}

theorem runEffect (h : r.Extends r') {e : EffectId} {st st' : State V R W}
    (hrun : r.runEffect e st = some st') : r'.runEffect e st = some st' := by
  rcases r.runEffect_cases hrun with ⟨ha, rfl⟩ | ⟨ha, hb, rfl⟩ | ⟨b, st₁, ha, hb, hbody, rfl⟩
  · exact r'.runEffect_of_inactive st' ha
  · exact r'.runEffect_of_none st ha hb
  · rw [r'.runEffect_of_some st ha hb, h.body b _ _ hbody]
    rfl

theorem drain (h : r.Extends r') (hlimit : limit ≤ limit') {st st' : State V R W}
    (hdrain : r.drain limit st = some st') : r'.drain limit' st = some st' := by
  induction limit generalizing limit' st with
  | zero =>
    cases hd : st.graph.dequeue? with
    | none =>
      rw [r.drain_of_none st hd] at hdrain
      rwa [r'.drain_of_none st hd]
    | some x =>
      rw [r.drain_zero_of_some st hd] at hdrain
      exact absurd hdrain.symm (Option.some_ne_none st')
  | succ limit ih =>
    cases hd : st.graph.dequeue? with
    | none =>
      rw [r.drain_of_none st hd] at hdrain
      rwa [r'.drain_of_none st hd]
    | some x =>
      -- A larger limit is not zero either, so that the same effect runs.
      obtain ⟨limit', rfl⟩ := Nat.exists_eq_succ_of_ne_zero (Nat.ne_zero_of_lt hlimit)
      rw [r.drain_succ_of_some st hd] at hdrain
      obtain ⟨st₁, heffect, hrest⟩ := Option.bind_eq_some_iff.mp hdrain
      rw [r'.drain_succ_of_some st hd, h.runEffect heffect]
      exact ih (Nat.le_of_succ_le_succ hlimit) hrest

theorem flush (h : r.Extends r') (hlimit : limit ≤ limit') {st st' : State V R W}
    (hflush : r.flush limit st = some st') : r'.flush limit' st = some st' := by
  rcases r.flush_cases hflush with ⟨hf, rfl⟩ | ⟨st₁, hf, hdrain, rfl⟩
  · exact r'.flush_of_flushing st' hf
  · rw [r'.flush_of_not_flushing st hf, h.drain hlimit hdrain]
    rfl

variable [Inhabited V]

/-- A script that ends ends in the same way where more is carried out. -/
theorem run (h : r.Extends r') (hlimit : limit ≤ limit') {p : Script V R W Q A α}
    {st : State V R W} {x : α × State V R W} (hrun : r.run limit p st = some x) :
    r'.run limit' p st = some x := by
  induction p generalizing st with
  | done a => exact hrun
  | look k ih => exact ih _ _ hrun
  | change f k ih => exact ih hrun
  | newSignal v k ih => exact ih _ hrun
  | read s k ih => exact ih _ hrun
  | write s v k ih =>
    obtain ⟨st₁, hflush, hrest⟩ := Option.bind_eq_some_iff.mp hrun
    exact Option.bind_eq_some_iff.mpr ⟨st₁, h.flush hlimit hflush, ih hrest⟩
  | effect b k ih =>
    obtain ⟨st₁, heffect, hrest⟩ := Option.bind_eq_some_iff.mp hrun
    exact Option.bind_eq_some_iff.mpr ⟨st₁, h.runEffect heffect, ih _ hrest⟩
  | stop e k ih => exact ih hrun
  | call q k ih =>
    obtain ⟨y, hcall, hrest⟩ := Option.bind_eq_some_iff.mp hrun
    exact Option.bind_eq_some_iff.mpr ⟨y, h.call q st y hcall, ih _ hrest⟩

end Extends

end Runner

namespace Meaning

variable [Inhabited V] (m : Meaning V R W Q A) {fuel fuel' : Nat}

theorem extends_runner (h : fuel ≤ fuel') : (m.runner fuel).Extends (m.runner fuel') := by
  -- By the smaller amount: routines and calls are carried out with one less on both sides.
  induction fuel generalizing fuel' with
  | zero => exact Runner.extends_exhausted _
  | succ fuel ih =>
    obtain ⟨fuel', rfl⟩ := Nat.exists_eq_succ_of_ne_zero (Nat.ne_zero_of_lt h)
    have hle := Nat.le_of_succ_le_succ h
    refine ⟨fun b st st' hbody ↦ ?_, fun q st x hcall ↦ ?_⟩
    · rw [runner_succ_body] at hbody ⊢
      obtain ⟨x, hx, rfl⟩ := Option.map_eq_some_iff.mp hbody
      rw [(ih hle).run hle hx]
      rfl
    · rw [runner_succ_call] at hcall ⊢
      exact (ih hle).run hle hcall

/-- **More fuel changes nothing.** A script that ends with some fuel ends with any larger amount, with
the same answer and in the same state. -/
theorem run_mono (h : fuel ≤ fuel') {p : Script V R W Q A α} {st : State V R W}
    {x : α × State V R W} (hrun : m.run fuel p st = some x) : m.run fuel' p st = some x :=
  (m.extends_runner h).run h hrun

end Meaning

end LiveMarkup
