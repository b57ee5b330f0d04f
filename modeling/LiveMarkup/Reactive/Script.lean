import LiveMarkup.Reactive.Graph

/-!
# Scripts

Code that works on signals, effects and a world of other things is a script: a tree whose nodes
are single steps, each followed by what to do with its answer. Scripts are data, so that the code
of effects, of lifecycle hooks and of directives can be kept, compared and reasoned about, and so
that a statement can speak of arbitrary code.

A script touches the signals and effects only through reads, writes, new effects and stops. It may
look at everything and may change the world `W`, which holds no part of the graph. Recursion goes
through calls: a call names a piece of code without containing it, and only running a script gives
the names a meaning.
-/

namespace LiveMarkup

/-- Code over a graph with values `V` and bodies `R`, a world `W`, and calls `Q` with answers
`A`. -/
inductive Script (V R W Q : Type) (A : Q → Type) (α : Type) : Type where
  /-- The code has ended. -/
  | done (result : α)
  /-- Looks at the graph and the world; this subscribes nobody. -/
  | look (next : Graph V R → W → Script V R W Q A α)
  /-- Changes the world. -/
  | change (f : W → W) (next : Script V R W Q A α)
  /-- Makes a signal. -/
  | newSignal (value : V) (next : SignalId → Script V R W Q A α)
  /-- Reads a signal, which subscribes the running effect. -/
  | read (s : SignalId) (next : V → Script V R W Q A α)
  /-- Writes a signal, which runs its subscribers now or, while the queue is being worked off,
  later. -/
  | write (s : SignalId) (value : V) (next : Script V R W Q A α)
  /-- Makes an effect and runs it at once. -/
  | effect (body : R) (next : EffectId → Script V R W Q A α)
  /-- Stops an effect. -/
  | stop (e : EffectId) (next : Script V R W Q A α)
  /-- Asks for a call to be carried out. -/
  | call (q : Q) (next : A q → Script V R W Q A α)

namespace Script

variable {V R W Q : Type} {A : Q → Type} {α β γ : Type}

/-- The script that goes on with the result of another. -/
def bind : Script V R W Q A α → (α → Script V R W Q A β) → Script V R W Q A β
  | .done a, f => f a
  | .look k, f => .look fun g w ↦ (k g w).bind f
  | .change h k, f => .change h (k.bind f)
  | .newSignal v k, f => .newSignal v fun s ↦ (k s).bind f
  | .read s k, f => .read s fun v ↦ (k v).bind f
  | .write s v k, f => .write s v (k.bind f)
  | .effect b k, f => .effect b fun e ↦ (k e).bind f
  | .stop e k, f => .stop e (k.bind f)
  | .call q k, f => .call q fun a ↦ (k a).bind f

instance : Monad (Script V R W Q A) where
  pure := .done
  bind := bind

theorem bind_done (p : Script V R W Q A α) : p.bind .done = p := by
  induction p <;> simp_all [bind]

theorem bind_assoc (p : Script V R W Q A α) (f : α → Script V R W Q A β)
    (h : β → Script V R W Q A γ) : (p.bind f).bind h = p.bind fun a ↦ (f a).bind h := by
  induction p <;> simp_all [bind]

instance : LawfulMonad (Script V R W Q A) :=
  LawfulMonad.mk' _ (fun p ↦ bind_done p) (fun _ _ ↦ rfl) (fun p f h ↦ bind_assoc p f h)

end Script

end LiveMarkup
