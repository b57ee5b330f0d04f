/-!
# The reactive graph

Signals hold values; effects are pieces of code that run again whenever a signal they read is
written. A signal lists its subscribers, the effects that read it, in the order of their first
read. An effect waits in the queue at most once, and the one queued last runs first.

This file holds the state and its pure steps. Running code is the business of
`LiveMarkup.Reactive.Run`: an effect's body is data of some type `R`, whatever that means.

While an effect runs, its body is taken out of it. A run that meets an effect without its body
does nothing. An effect that is stopped loses its body for good.
-/

namespace LiveMarkup

/-- The identity of a signal. -/
structure SignalId where
  index : Nat
deriving DecidableEq, Repr, Inhabited

/-- The identity of an effect. -/
structure EffectId where
  index : Nat
deriving DecidableEq, Repr, Inhabited

/-- A value that can be read and written. -/
structure Signal (V : Type) where
  value : V
  /-- The effects that read the signal, in the order of their first read. -/
  subscribers : List EffectId
deriving Inhabited

/-- A piece of code that runs again when a signal it read is written. -/
structure Effect (R : Type) where
  /-- The body, unless it is running or the effect is stopped. -/
  body : Option R
  active : Bool
  /-- Whether the effect waits in the queue. -/
  queued : Bool

instance {R : Type} : Inhabited (Effect R) := ⟨⟨none, false, false⟩⟩

/-- The state of all signals and effects. -/
structure Graph (V R : Type) where
  signals : Array (Signal V)
  effects : Array (Effect R)
  /-- The effects that wait to run, the next one first. -/
  queue : List EffectId
  /-- The effect whose body runs innermost, to which reads are attributed. -/
  current : Option EffectId
  /-- Whether the queue is being worked off. -/
  flushing : Bool

namespace Graph

variable {V R : Type}

/-- No signals and no effects. -/
def empty : Graph V R := ⟨#[], #[], [], none, false⟩

/-- The effect of an identity. -/
def effect (g : Graph V R) (e : EffectId) : Effect R := g.effects.getD e.index default

/-- Changes the effect of an identity. -/
def modifyEffect (g : Graph V R) (e : EffectId) (f : Effect R → Effect R) : Graph V R :=
  { g with effects := g.effects.modify e.index f }

/-- Whether an effect was not stopped. -/
def isActive (g : Graph V R) (e : EffectId) : Bool := (g.effect e).active

/-- Adds a signal. -/
def newSignal (g : Graph V R) (v : V) : SignalId × Graph V R :=
  (⟨g.signals.size⟩, { g with signals := g.signals.push ⟨v, []⟩ })

/-- Adds an effect that has not run yet. -/
def newEffect (g : Graph V R) (body : R) : EffectId × Graph V R :=
  (⟨g.effects.size⟩, { g with effects := g.effects.push ⟨some body, true, false⟩ })

/-- Stops an effect: its body is given up and never runs again. -/
def stop (g : Graph V R) (e : EffectId) : Graph V R :=
  g.modifyEffect e fun cell ↦ { cell with body := none, active := false }

section Signals

variable [Inhabited V]

/-- The signal of an identity. -/
def signal (g : Graph V R) (s : SignalId) : Signal V := g.signals.getD s.index default

/-- The value of a signal. -/
def value (g : Graph V R) (s : SignalId) : V := (g.signal s).value

/-- The subscribers of a signal that were not stopped, in the order of their first read. -/
def activeSubscribers (g : Graph V R) (s : SignalId) : List EffectId :=
  (g.signal s).subscribers.filter g.isActive

/-- Subscribes the running effect, if there is one, to a signal it reads. -/
def track (g : Graph V R) (s : SignalId) : Graph V R :=
  match g.current with
  | none => g
  | some e =>
    { g with signals := g.signals.modify s.index fun signal ↦
        if e ∈ signal.subscribers then signal
        else { signal with subscribers := signal.subscribers ++ [e] } }

/-- Puts an effect in front of the queue, unless it waits already. -/
def enqueue (g : Graph V R) (e : EffectId) : Graph V R :=
  if (g.effect e).queued then g
  else { g.modifyEffect e (fun cell ↦ { cell with queued := true }) with queue := e :: g.queue }

/-- Gives a signal a value, forgets its stopped subscribers and queues the others in order. -/
def write (g : Graph V R) (s : SignalId) (v : V) : Graph V R :=
  let subscribers := g.activeSubscribers s
  let g := { g with signals := g.signals.modify s.index fun _ ↦ ⟨v, subscribers⟩ }
  subscribers.foldl enqueue g

end Signals

/-- Takes the next effect from the queue. -/
def dequeue? (g : Graph V R) : Option (EffectId × Graph V R) :=
  match g.queue with
  | [] => none
  | e :: rest =>
    some (e, { g.modifyEffect e (fun cell ↦ { cell with queued := false }) with queue := rest })

/-- Begins a run of an effect: its body is taken out, and reads count for it. -/
def beginRun (g : Graph V R) (e : EffectId) : Graph V R :=
  { g.modifyEffect e (fun cell ↦ { cell with body := none }) with current := some e }

/-- Ends a run: reads count again for `outer`, and the body goes back unless the effect was
stopped meanwhile. -/
def endRun (g : Graph V R) (e : EffectId) (outer : Option EffectId) (body : Option R) :
    Graph V R :=
  let g := { g with current := outer }
  if g.isActive e then g.modifyEffect e fun cell ↦ { cell with body := body } else g

end Graph

end LiveMarkup
