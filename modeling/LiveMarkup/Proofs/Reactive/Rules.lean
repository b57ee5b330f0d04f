import LiveMarkup.Proofs.Reactive.Beside

/-!
# Rules for what code does to its world

Of code that is not known one can still say what its steps may do to the world: what the code
changes itself, what the bodies of effects may change that run meanwhile, which calls it asks for,
and what these may answer and change. `Script.Obeys` says of a script that, from a given world on,
each of its own changes keeps to the rules if bodies and calls do, and what holds where it ends. It
is computed from the end of the script backwards, so that it passes through a sequence of two
scripts (`Script.obeys_bind`).

A relation between worlds that takes the rules in holds across every run (`Runner.Upholds.run`).
What lies beside the world may be part of that relation; a script that leaves it alone can rely on
the relation to say what bodies and calls do to it.
-/

namespace LiveMarkup

variable {V R W D Q : Type} {A : Q → Type} {α β : Type}

/-- What may become of a world while code runs. -/
structure Rules (W Q : Type) (A : Q → Type) where
  /-- What the code may change itself. -/
  own : W → W → Prop
  /-- What the bodies of effects may change that run meanwhile. -/
  bodies : W → W → Prop
  /-- When a call may be asked for. -/
  asks : Q → W → Prop
  /-- What a call may answer and change. -/
  answers : (q : Q) → W → A q → W → Prop

namespace Script

/-- Whether the changes of a script keep to the rules from a world on, and what holds at its end. -/
def Obeys (ρ : Rules W Q A) (post : α → W → Prop) : Script V R W Q A α → W → Prop
  | .done a, w => post a w
  | .look k, w => ∀ g, (k g w).Obeys ρ post w
  | .change f k, w => ρ.own w (f w) ∧ k.Obeys ρ post (f w)
  | .newSignal _ k, w => ∀ s, (k s).Obeys ρ post w
  | .read _ k, w => ∀ v, (k v).Obeys ρ post w
  | .write _ _ k, w => ∀ w', ρ.bodies w w' → k.Obeys ρ post w'
  | .effect _ k, w => ∀ e w', ρ.bodies w w' → (k e).Obeys ρ post w'
  | .stop _ k, w => k.Obeys ρ post w
  | .call q k, w => ρ.asks q w ∧ ∀ a w', ρ.answers q w a w' → (k a).Obeys ρ post w'

variable {ρ : Rules W Q A}

theorem obeys_bind {post : β → W → Prop} (p : Script V R W Q A α) (f : α → Script V R W Q A β)
    (w : W) : (p.bind f).Obeys ρ post w ↔ p.Obeys ρ (fun a ↦ (f a).Obeys ρ post) w := by
  induction p generalizing w with
  | done a => rfl
  | look k ih => exact forall_congr' fun g ↦ ih g w w
  | change h k ih => exact and_congr_right fun _ ↦ ih _
  | newSignal v k ih => exact forall_congr' fun s ↦ ih s w
  | read s k ih => exact forall_congr' fun v ↦ ih v w
  | write s v k ih => exact forall₂_congr fun w' _ ↦ ih w'
  | effect b k ih => exact forall₃_congr fun e w' _ ↦ ih e w'
  | stop e k ih => exact ih w
  | call q k ih => exact and_congr_right fun _ ↦ forall₃_congr fun a w' _ ↦ ih a w'

theorem Obeys.mono {post post' : α → W → Prop} {p : Script V R W Q A α} {w : W}
    (h : p.Obeys ρ post w) (hpost : ∀ a w, post a w → post' a w) : p.Obeys ρ post' w := by
  induction p generalizing w with
  | done a => exact hpost a w h
  | look k ih => exact fun g ↦ ih g w (h g)
  | change f k ih => exact ⟨h.1, ih h.2⟩
  | newSignal v k ih => exact fun s ↦ ih s (h s)
  | read s k ih => exact fun v ↦ ih v (h v)
  | write s v k ih => exact fun w' hw ↦ ih (h w' hw)
  | effect b k ih => exact fun e w' hw ↦ ih e (h e w' hw)
  | stop e k ih => exact ih h
  | call q k ih => exact ⟨h.1, fun a w' hw ↦ ih a (h.2 a w' hw)⟩

end Script

namespace Runner

/-! ## From bodies to flushes -/

section Bodies

variable {r : Runner V R W Q A} {P : W → W → Prop} {st st' : State V R W}

theorem runEffect_of_bodies (hrefl : ∀ w, P w w)
    (hr : ∀ b st st', r.body b st = some st' → P st.world st'.world) {e : EffectId}
    (hrun : r.runEffect e st = some st') : P st.world st'.world := by
  rcases r.runEffect_cases hrun with ⟨-, rfl⟩ | ⟨-, -, rfl⟩ | ⟨b, st₁, -, -, hbody, rfl⟩
  · exact hrefl _
  · exact hrefl _
  · have hstep := hr b _ _ hbody
    exact hstep

theorem drain_of_bodies (hrefl : ∀ w, P w w) (htrans : ∀ w₁ w₂ w₃, P w₁ w₂ → P w₂ w₃ → P w₁ w₃)
    (hr : ∀ b st st', r.body b st = some st' → P st.world st'.world) {limit : Nat}
    (hrun : r.drain limit st = some st') : P st.world st'.world := by
  refine r.drain_induction (motive := fun st st' ↦ P st.world st'.world) ?_ ?_ hrun
  · exact fun st _ ↦ hrefl st.world
  · intro st e g st₁ st' _ heffect hrest
    have hfirst := runEffect_of_bodies hrefl hr heffect
    exact htrans _ _ _ hfirst hrest

theorem flush_of_bodies (hrefl : ∀ w, P w w) (htrans : ∀ w₁ w₂ w₃, P w₁ w₂ → P w₂ w₃ → P w₁ w₃)
    (hr : ∀ b st st', r.body b st = some st' → P st.world st'.world) {limit : Nat}
    (hrun : r.flush limit st = some st') : P st.world st'.world := by
  rcases r.flush_cases hrun with ⟨-, rfl⟩ | ⟨st₁, -, hdrain, rfl⟩
  · exact hrefl _
  · have hstep := drain_of_bodies hrefl htrans hr hdrain
    exact hstep

end Bodies

/-! ## From bodies and calls to scripts -/

/-- Whether a relation between worlds, and what lies beside them, holds across every body and every
call that may be asked for, and calls answer by the rules. -/
structure Upholds (r : Runner V R (W × D) Q A) (ρ : Rules W Q A) (P : W × D → W × D → Prop) :
    Prop where
  body : ∀ b st st', r.body b st = some st' → P st.world st'.world
  call : ∀ q st a st', ρ.asks q st.world.1 → r.call q st = some (a, st') →
    P st.world st'.world ∧ ρ.answers q st.world.1 a st'.world.1

end Runner

/-- Whether a relation between worlds, and what lies beside them, takes in what rules allow to the
code itself, and allows no more than the rules do to bodies. -/
structure Rules.Within (ρ : Rules W Q A) (P : W × D → W × D → Prop) : Prop where
  refl : ∀ x, P x x
  trans : ∀ x y z, P x y → P y z → P x z
  own : ∀ w w' d, ρ.own w w' → P (w, d) (w', d)
  bodies : ∀ x y, P x y → ρ.bodies x.1 y.1

variable [Inhabited V]

/-- **What rules allow, runs keep.** A script that obeys the rules does what the relation says, and
ends as it should. -/
theorem Runner.Upholds.run {r : Runner V R (W × D) Q A} {ρ : Rules W Q A}
    {P : W × D → W × D → Prop} (h : r.Upholds ρ P) (hρ : ρ.Within P) {limit : Nat}
    {p : Script V R W Q A α} {post : α → W → Prop} {a : α} {st st' : State V R (W × D)}
    (hrun : r.run limit p.beside st = some (a, st')) (hp : p.Obeys ρ post st.world.1) :
    P st.world st'.world ∧ post a st'.world.1 := by
  induction p generalizing st with
  | done _ =>
    obtain ⟨rfl, rfl⟩ := Prod.mk.inj (Option.some.inj hrun)
    exact ⟨hρ.refl _, hp⟩
  | look k ih => exact ih _ _ hrun (hp _)
  | change f k ih =>
    have hstep : P st.world (f st.world.1, st.world.2) := hρ.own _ _ _ hp.1
    exact (ih hrun hp.2).imp_left (hρ.trans _ _ _ hstep)
  | newSignal v k ih =>
    have hrest := ih _ hrun (hp _)
    exact hrest
  | read s k ih =>
    have hrest := ih _ hrun (hp _)
    exact hrest
  | write s v k ih =>
    obtain ⟨st₁, hflush, hk⟩ := Option.bind_eq_some_iff.mp hrun
    have hstep := Runner.flush_of_bodies hρ.refl hρ.trans h.body hflush
    exact (ih hk (hp _ (hρ.bodies _ _ hstep))).imp_left (hρ.trans _ _ _ hstep)
  | effect b k ih =>
    obtain ⟨st₁, heffect, hk⟩ := Option.bind_eq_some_iff.mp hrun
    have hstep := Runner.runEffect_of_bodies hρ.refl h.body heffect
    exact (ih _ hk (hp _ _ (hρ.bodies _ _ hstep))).imp_left (hρ.trans _ _ _ hstep)
  | stop e k ih =>
    have hrest := ih hrun hp
    exact hrest
  | call q k ih =>
    obtain ⟨x, hq, hk⟩ := Option.bind_eq_some_iff.mp hrun
    obtain ⟨hstep, hanswer⟩ := h.call q st x.1 x.2 hp.1 hq
    exact (ih _ hk (hp.2 _ _ hanswer)).imp_left (hρ.trans _ _ _ hstep)

end LiveMarkup
