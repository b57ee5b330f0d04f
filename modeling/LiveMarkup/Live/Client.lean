import LiveMarkup.Live.Component

/-!
# Clients

A client gives a meaning to the tokens for its own code. With that, scripts can be run: the bodies
of effects and the calls for code mean scripts, and `Live.run` runs a script on a graph and a
world.
-/

namespace LiveMarkup

/-- What a client's code does. -/
structure Client (C H : Type) where
  /-- Performs code: of an effect, a hook, or a binding that is disposed. -/
  perform : C → Live C H Unit
  /-- Makes the binding of a directive on a node, or gives a reason not to. -/
  bind : C → Scope → NodeId → Descriptor → Live C H (Except String (Binding C))
  /-- Carries out a program of the client's own. -/
  link : C → Scope → Target → Live C H (Except LinkError Unit)

namespace Client

variable {C H : Type}

/-- The client without code of its own. -/
def none : Client Empty Unit := ⟨nofun, nofun, nofun⟩

/-- What bodies and calls mean for a client. -/
def meaning (c : Client C H) : Meaning Value (Routine C) (World C H) (Call C) Call.Answer where
  body := Routine.script
  call
    | .perform code => c.perform code
    | .bind code scope node descriptor => c.bind code scope node descriptor
    | .link code scope target => c.link code scope target
    | .resume => Live.resume

/-- Runs a script for a client; `none` when the fuel runs out. -/
def run {α : Type} (c : Client C H) (fuel : Nat) (p : Live C H α)
    (st : State Value (Routine C) (World C H)) :
    Option (α × State Value (Routine C) (World C H)) := c.meaning.run fuel p st

end Client

end LiveMarkup
