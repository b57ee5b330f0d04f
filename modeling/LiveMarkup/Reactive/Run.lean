import LiveMarkup.Reactive.Script

/-!
# Running scripts

A script runs on a graph and a world. Running needs a meaning for the bodies of effects and for
calls, both again scripts, so a run need not end; it is given fuel, and `none` says that the fuel
ran out. Each body and each call runs on one unit less than the script it is reached from, and
working off the queue may run as many effects as there is fuel.

## How effects run

A write outside of any flush works off the queue before it returns; a write within a flush only
queues. A new effect runs at once, inside whatever runs. Reads count for the effect whose body is
innermost, and what was innermost before counts again afterwards.
-/

namespace LiveMarkup

/-- Everything a script works on. -/
structure State (V R W : Type) where
  graph : Graph V R
  world : W

namespace State

variable {V R W : Type}

/-- Replaces the graph. -/
def withGraph (st : State V R W) (g : Graph V R) : State V R W := { st with graph := g }

end State

/-- What bodies and calls mean. -/
structure Meaning (V R W Q : Type) (A : Q → Type) where
  body : R → Script V R W Q A Unit
  call : (q : Q) → Script V R W Q A (A q)

/-- How bodies and calls are carried out on a state; `none` when fuel runs out. -/
structure Runner (V R W Q : Type) (A : Q → Type) where
  body : R → State V R W → Option (State V R W)
  call : (q : Q) → State V R W → Option (A q × State V R W)

namespace Runner

variable {V R W Q : Type} {A : Q → Type} {α : Type} [Inhabited V]

/-- Carries out nothing. -/
def exhausted : Runner V R W Q A := ⟨fun _ _ ↦ none, fun _ _ ↦ none⟩

/-- Runs an effect's body, if it is active and its body is there. -/
def runEffect (r : Runner V R W Q A) (e : EffectId) (st : State V R W) :
    Option (State V R W) :=
  if st.graph.isActive e then
    let outer := st.graph.current
    let body := (st.graph.effect e).body
    let started := st.withGraph (st.graph.beginRun e)
    let ran := match body with
      | none => some started
      | some b => r.body b started
    ran.map fun st ↦ st.withGraph (st.graph.endRun e outer body)
  else some st

/-- Runs the effects of the queue, and those they queue, until none is left; at most `limit` of
them. -/
def drain (r : Runner V R W Q A) : (limit : Nat) → State V R W → Option (State V R W)
  | limit, st =>
    match st.graph.dequeue? with
    | none => some st
    | some (e, g) =>
      match limit with
      | 0 => none
      | limit + 1 => (r.runEffect e (st.withGraph g)).bind (r.drain limit)

/-- Works off the queue, unless that is already under way. -/
def flush (r : Runner V R W Q A) (limit : Nat) (st : State V R W) : Option (State V R W) :=
  if st.graph.flushing then some st
  else
    (r.drain limit (st.withGraph { st.graph with flushing := true })).map fun st ↦
      st.withGraph { st.graph with flushing := false }

/-- Runs a script. -/
def run (r : Runner V R W Q A) (limit : Nat) :
    Script V R W Q A α → State V R W → Option (α × State V R W)
  | .done a, st => some (a, st)
  | .look k, st => r.run limit (k st.graph st.world) st
  | .change f k, st => r.run limit k { st with world := f st.world }
  | .newSignal v k, st =>
    let (s, g) := st.graph.newSignal v
    r.run limit (k s) (st.withGraph g)
  | .read s k, st => r.run limit (k (st.graph.value s)) (st.withGraph (st.graph.track s))
  | .write s v k, st =>
    (r.flush limit (st.withGraph (st.graph.write s v))).bind (r.run limit k)
  | .effect b k, st =>
    let (e, g) := st.graph.newEffect b
    (r.runEffect e (st.withGraph g)).bind (r.run limit (k e))
  | .stop e k, st => r.run limit k (st.withGraph (st.graph.stop e))
  | .call q k, st => (r.call q st).bind fun (a, st) ↦ r.run limit (k a) st

end Runner

namespace Meaning

variable {V R W Q : Type} {A : Q → Type} {α : Type} [Inhabited V]

/-- Carries out bodies and calls by what they mean, to a depth of `fuel`. -/
def runner (m : Meaning V R W Q A) : (fuel : Nat) → Runner V R W Q A
  | 0 => .exhausted
  | fuel + 1 =>
    { body := fun b st ↦ ((m.runner fuel).run fuel (m.body b) st).map (·.2)
      call := fun q st ↦ (m.runner fuel).run fuel (m.call q) st }

/-- Runs a script with the given fuel. -/
def run (m : Meaning V R W Q A) (fuel : Nat) (p : Script V R W Q A α) (st : State V R W) :
    Option (α × State V R W) := (m.runner fuel).run fuel p st

end Meaning

/-- A script that looks at the graph and the world and answers what it finds. -/
def Script.ask {V R W Q : Type} {A : Q → Type} {α : Type} (f : Graph V R → W → α) :
    Script V R W Q A α := .look fun g w ↦ .done (f g w)

end LiveMarkup
