import LiveMarkup.Proofs.Reactive.Run

/-!
# Notes beside the world

What happens while a script runs is not to be seen in the state that it leaves behind. A statement
about it speaks of scripts that take notes, and the notes lie beside the world. `Script.beside` is a
script as it is, which leaves the notes alone; scripts that do take notes are put together from such
pieces. Neither bodies nor calls cost more fuel for it.

Notes change nothing: if every body and every call does, apart from the notes, what it did before
(`Runner.Follows`), then so does every run (`Meaning.mirrors_runner`).
-/

namespace LiveMarkup

variable {V R W D Q : Type} {A : Q → Type} {α β : Type}

/-- The script, which leaves alone what lies beside its world. -/
def Script.beside : Script V R W Q A α → Script V R (W × D) Q A α
  | .done a => .done a
  | .look k => .look fun g w ↦ (k g w.1).beside
  | .change f k => .change (fun w ↦ (f w.1, w.2)) k.beside
  | .newSignal v k => .newSignal v fun s ↦ (k s).beside
  | .read s k => .read s fun v ↦ (k v).beside
  | .write s v k => .write s v k.beside
  | .effect b k => .effect b fun e ↦ (k e).beside
  | .stop e k => .stop e k.beside
  | .call q k => .call q fun a ↦ (k a).beside

theorem Script.beside_bind (p : Script V R W Q A α) (f : α → Script V R W Q A β) :
    ((p.bind f).beside : Script V R (W × D) Q A β) = p.beside.bind fun a ↦ (f a).beside := by
  induction p <;> simp_all [bind, beside]

/-- Whether a script does what another does, step by step, and otherwise only looks and takes notes
beside the world. -/
inductive Script.Notes : Script V R (W × D) Q A α → Script V R W Q A α → Prop where
  | done (a : α) : Notes (.done a) (.done a)
  | look {k' : Graph V R → W × D → Script V R (W × D) Q A α}
      {k : Graph V R → W → Script V R W Q A α}
      (next : ∀ g x, Notes (k' g x) (k g x.1)) : Notes (.look k') (.look k)
  | change {f' : W × D → W × D} {f : W → W} {k' : Script V R (W × D) Q A α}
      {k : Script V R W Q A α} (same : ∀ x, (f' x).1 = f x.1) (next : Notes k' k) :
      Notes (.change f' k') (.change f k)
  | newSignal (v : V) {k' : SignalId → Script V R (W × D) Q A α}
      {k : SignalId → Script V R W Q A α} (next : ∀ s, Notes (k' s) (k s)) :
      Notes (.newSignal v k') (.newSignal v k)
  | read (s : SignalId) {k' : V → Script V R (W × D) Q A α} {k : V → Script V R W Q A α}
      (next : ∀ v, Notes (k' v) (k v)) : Notes (.read s k') (.read s k)
  | write (s : SignalId) (v : V) {k' : Script V R (W × D) Q A α} {k : Script V R W Q A α}
      (next : Notes k' k) : Notes (.write s v k') (.write s v k)
  | effect (b : R) {k' : EffectId → Script V R (W × D) Q A α} {k : EffectId → Script V R W Q A α}
      (next : ∀ e, Notes (k' e) (k e)) : Notes (.effect b k') (.effect b k)
  | stop (e : EffectId) {k' : Script V R (W × D) Q A α} {k : Script V R W Q A α}
      (next : Notes k' k) : Notes (.stop e k') (.stop e k)
  | call (q : Q) {k' : A q → Script V R (W × D) Q A α} {k : A q → Script V R W Q A α}
      (next : ∀ a, Notes (k' a) (k a)) : Notes (.call q k') (.call q k)
  /-- Takes a note. -/
  | note {f : W × D → W × D} {k' : Script V R (W × D) Q A α} {p : Script V R W Q A α}
      (same : ∀ x, (f x).1 = x.1) (next : Notes k' p) : Notes (.change f k') p

namespace Script.Notes

variable {p' : Script V R (W × D) Q A α} {p : Script V R W Q A α}

theorem beside (p : Script V R W Q A α) : (p.beside : Script V R (W × D) Q A α).Notes p := by
  induction p with
  | done a => exact .done a
  | look k ih => exact .look fun g x ↦ ih g x.1
  | change f k ih => exact .change (fun _ ↦ rfl) ih
  | newSignal v k ih => exact .newSignal v ih
  | read s k ih => exact .read s ih
  | write s v k ih => exact .write s v ih
  | effect b k ih => exact .effect b ih
  | stop e k ih => exact .stop e ih
  | call q k ih => exact .call q ih

theorem bind (h : p'.Notes p) {f' : α → Script V R (W × D) Q A β} {f : α → Script V R W Q A β}
    (hf : ∀ a, (f' a).Notes (f a)) : (p'.bind f').Notes (p.bind f) := by
  induction h with
  | done a => exact hf a
  | look _ ih => exact .look ih
  | change hsame _ ih => exact .change hsame ih
  | newSignal v _ ih => exact .newSignal v ih
  | read s _ ih => exact .read s ih
  | write s v _ ih => exact .write s v ih
  | effect b _ ih => exact .effect b ih
  | stop e _ ih => exact .stop e ih
  | call q _ ih => exact .call q ih
  | note hsame _ ih => exact .note hsame ih

end Script.Notes

namespace State

/-- The state without what lies beside its world. -/
def bare (st : State V R (W × D)) : State V R W := ⟨st.graph, st.world.1⟩

/-- The state with something beside its world. -/
def beside (st : State V R W) (d : D) : State V R (W × D) := ⟨st.graph, (st.world, d)⟩

@[simp] theorem graph_bare (st : State V R (W × D)) : st.bare.graph = st.graph := rfl

@[simp] theorem bare_withGraph (st : State V R (W × D)) (g : Graph V R) :
    (st.withGraph g).bare = st.bare.withGraph g := rfl

@[simp] theorem bare_beside (st : State V R W) (d : D) : (st.beside d).bare = st := rfl

@[simp] theorem beside_bare (st : State V R (W × D)) : st.bare.beside st.world.2 = st := rfl

@[simp] theorem world_beside (st : State V R W) (d : D) : (st.beside d).world = (st.world, d) := rfl

end State

namespace Runner

/-- Whether a runner does what another does, apart from what lies beside the world. -/
structure Mirrors (r' : Runner V R (W × D) Q A) (r : Runner V R W Q A) : Prop where
  body : ∀ b st, (r'.body b st).map State.bare = r.body b st.bare
  call : ∀ q st, (r'.call q st).map (Prod.map id State.bare) = r.call q st.bare

namespace Mirrors

variable {r' : Runner V R (W × D) Q A} {r : Runner V R W Q A}

theorem runEffect (h : Mirrors r' r) (e : EffectId) (st : State V R (W × D)) :
    (r'.runEffect e st).map State.bare = r.runEffect e st.bare := by
  cases ha : st.graph.isActive e with
  | false => rw [runEffect_of_inactive r' st ha, runEffect_of_inactive r st.bare ha]; rfl
  | true =>
    cases hb : (st.graph.effect e).body with
    | none => rw [runEffect_of_none r' st ha hb, runEffect_of_none r st.bare ha hb]; rfl
    | some b =>
      rw [runEffect_of_some r' st ha hb, runEffect_of_some r st.bare ha hb, State.graph_bare,
        ← State.bare_withGraph, ← h.body b, Option.map_map, Option.map_map]
      rfl

theorem drain (h : Mirrors r' r) (limit : Nat) (st : State V R (W × D)) :
    (r'.drain limit st).map State.bare = r.drain limit st.bare := by
  induction limit generalizing st with
  | zero =>
    cases hd : st.graph.dequeue? with
    | none => rw [drain_of_none r' st hd, drain_of_none r st.bare hd]; rfl
    | some x => rw [drain_zero_of_some r' st hd, drain_zero_of_some r st.bare hd]; rfl
  | succ limit ih =>
    cases hd : st.graph.dequeue? with
    | none => rw [drain_of_none r' st hd, drain_of_none r st.bare hd]; rfl
    | some x =>
      rw [drain_succ_of_some r' st hd, drain_succ_of_some r st.bare hd, ← State.bare_withGraph,
        ← h.runEffect, Option.map_bind, Option.bind_map]
      exact congrArg _ (funext ih)

theorem flush (h : Mirrors r' r) (limit : Nat) (st : State V R (W × D)) :
    (r'.flush limit st).map State.bare = r.flush limit st.bare := by
  cases hf : st.graph.flushing with
  | true => rw [flush_of_flushing r' st hf, flush_of_flushing r st.bare hf]; rfl
  | false =>
    rw [flush_of_not_flushing r' st hf, flush_of_not_flushing r st.bare hf, State.graph_bare,
      ← State.bare_withGraph, ← h.drain, Option.map_map, Option.map_map]
    rfl

end Mirrors

variable [Inhabited V]

/-- Whether a script does what another does, apart from what lies beside the world. -/
def Follows (r' : Runner V R (W × D) Q A) (r : Runner V R W Q A) (limit : Nat)
    (p' : Script V R (W × D) Q A α) (p : Script V R W Q A α) : Prop :=
  ∀ st, (r'.run limit p' st).map (Prod.map id State.bare) = r.run limit p st.bare

namespace Follows

variable {r' : Runner V R (W × D) Q A} {r : Runner V R W Q A} {limit : Nat}

theorem done (a : α) : Follows r' r limit (.done a) (.done a) := fun _ ↦ rfl

theorem bind {p' : Script V R (W × D) Q A α} {p : Script V R W Q A α}
    {f' : α → Script V R (W × D) Q A β} {f : α → Script V R W Q A β}
    (h : Follows r' r limit p' p) (h' : ∀ a, Follows r' r limit (f' a) (f a)) :
    Follows r' r limit (p'.bind f') (p.bind f) := by
  intro st
  rw [run_bind, run_bind, ← h st, Option.map_bind, Option.bind_map]
  exact congrArg _ (funext fun x ↦ h' x.1 x.2)

/-- Taking a note is nothing to be seen. -/
theorem note {p' : Script V R (W × D) Q A α} {p : Script V R W Q A α}
    (h : Follows r' r limit p' p) (f : W → D → D) :
    Follows r' r limit (.change (fun w ↦ (w.1, f w.1 w.2)) p') p := fun st ↦
  h { st with world := (st.world.1, f st.world.1 st.world.2) }

end Follows

/-- Taking notes is nothing to be seen. -/
theorem Mirrors.notes {r' : Runner V R (W × D) Q A} {r : Runner V R W Q A} {limit : Nat}
    {p' : Script V R (W × D) Q A α} {p : Script V R W Q A α} (h : r'.Mirrors r)
    (hp : p'.Notes p) : r'.Follows r limit p' p := by
  induction hp with
  | done a => exact .done a
  | look _ ih => exact fun st ↦ ih st.graph st.world st
  | @change f' f _ _ hsame _ ih =>
    intro st
    have hnext := ih { st with world := f' st.world }
    have hbare : State.bare { st with world := f' st.world } =
        { st.bare with world := f st.bare.world } := congrArg (State.mk st.graph) (hsame st.world)
    rwa [hbare] at hnext
  | newSignal v _ ih => exact fun st ↦ ih _ _
  | read s _ ih => exact fun st ↦ ih _ _
  | write s v _ ih =>
    intro st
    rw [run, run, State.graph_bare, ← State.bare_withGraph, ← h.flush, Option.map_bind,
      Option.bind_map]
    exact congrArg _ (funext ih)
  | effect b _ ih =>
    intro st
    simp only [run, State.graph_bare]
    rw [← State.bare_withGraph, ← h.runEffect, Option.map_bind, Option.bind_map]
    exact congrArg _ (funext (ih _))
  | stop e _ ih => exact fun st ↦ ih _
  | call q _ ih =>
    intro st
    rw [run, run, ← h.call, Option.map_bind, Option.bind_map]
    exact congrArg _ (funext fun x ↦ ih _ _)
  | @note f _ _ hsame _ ih =>
    intro st
    have hnext := ih { st with world := f st.world }
    have hbare : State.bare { st with world := f st.world } = st.bare :=
      congrArg (State.mk st.graph) (hsame st.world)
    rwa [hbare] at hnext

theorem Mirrors.beside {r' : Runner V R (W × D) Q A} {r : Runner V R W Q A} (h : Mirrors r' r)
    (limit : Nat) (p : Script V R W Q A α) : Follows r' r limit p.beside p := h.notes (.beside p)

end Runner

namespace Meaning

variable [Inhabited V] {m' : Meaning V R (W × D) Q A} {m : Meaning V R W Q A}

/-- **Notes change nothing.** If bodies and calls do what they did without notes, then at any depth
of fuel so does what carries them out. -/
theorem mirrors_runner
    (hbody : ∀ (r' : Runner V R (W × D) Q A) r limit, r'.Mirrors r →
      ∀ b, r'.Follows r limit (m'.body b) (m.body b))
    (hcall : ∀ (r' : Runner V R (W × D) Q A) r limit, r'.Mirrors r →
      ∀ q, r'.Follows r limit (m'.call q) (m.call q)) (fuel : Nat) :
    (m'.runner fuel).Mirrors (m.runner fuel) := by
  induction fuel with
  | zero => exact ⟨fun _ _ ↦ rfl, fun _ _ ↦ rfl⟩
  | succ fuel ih =>
    constructor
    · intro b st
      rw [runner_succ_body, runner_succ_body, ← hbody _ _ fuel ih b st, Option.map_map,
        Option.map_map]
      rfl
    · intro q st
      rw [runner_succ_call, runner_succ_call]
      exact hcall _ _ fuel ih q st

end Meaning

end LiveMarkup
